import TeaBot.Loggers.Logger

/-! # `logger_handler`

What the coroutine of one connection does with the decoded payload, and the error
report that its `catch (\Error $e)` sends.
-/

namespace TeaBot.Loggers

open Foundation

/-- `catch (\Error $e)`: exceptions pass through. -/
def catchError {α : Type} (body : Run α) (handler : Throwable → Run α) : Run α :=
  body.tryCatch fun e => if e.isException then .throw e else handler e

def errorMsg (date : String) (e : Throwable) (rawData : String) : String :=
  "======================\n" ++ date ++ "\n" ++ "Error: " ++ e.getMessage ++ "\n" ++
    e.toText ++ "\n" ++ "Data: " ++ rawData ++ "\n" ++ "======================\n"

def bytes (s : String) : List UInt8 := s.toList.flatMap String.utf8EncodeChar

/-- `str_split($s, $n)` for a positive `$n`. -/
def strSplit (n : Nat) (s : List UInt8) : List (List UInt8) :=
  if _h : n = 0 ∨ s.length ≤ n then [s] else s.take n :: strSplit n (s.drop n)
termination_by s.length
decreasing_by
  rw [List.length_drop]
  omega

/-- Each part replies to the one before; `j` is the last answer. -/
def sendParts (chatId : Int) : List (List UInt8) → Php → Run Unit
  | [], _ => pure ()
  | msg :: rest, j => do
    let j ← perform (.exe (.sendBytes chatId msg (resultMessageId j)))
    sendParts chatId rest j

def sendErrorLogToTelegram (chatId : Int) (text : String) : Run Unit :=
  sendParts chatId (strSplit 4096 (bytes text)) .null

def sendToAll (text : String) : List Int → Run Unit
  | [] => pure ()
  | chatId :: rest => do
    sendErrorLogToTelegram chatId text
    sendToAll text rest

/-- `chatIds` is `TELEGRAM_ERROR_REPORT_CHAT_ID`, empty if it is not defined. -/
def telegramDaemonErrorReport (chatIds : List Int) (date : String) (e : Throwable) (rawData : String) :
    Run Unit := do
  perform (.errorLog (errorMsg date e rawData))
  sendToAll (errorMsg date e rawData) chatIds

/-- `data` is what `json_decode` made of the payload. -/
def loggerHandler (chatIds : List Int) (data : Php) (date : String) : Run Unit :=
  if data.isArray then
    catchError (Logger.run (Data.constructGeneralInput data) date) fun e =>
      telegramDaemonErrorReport chatIds date e (data.json jsonStringSlashes)
  else pure ()

end TeaBot.Loggers
