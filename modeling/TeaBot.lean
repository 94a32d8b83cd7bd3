import TeaBot.Daemon.ReadLoops
import TeaBot.Daemon.Delivery
import TeaBot.Loggers.PhotoHistory
import TeaBot.Loggers.GroupTitle
import TeaBot.Loggers.Throttle
import TeaBot.Loggers.PhotoTracking
import TeaBot.Loggers.MessageRuns
import TeaBot.Loggers.MessageFailure
import TeaBot.Loggers.FileNames
import TeaBot.Loggers.Reports
import TeaBot.Loggers.MutexNames
import TeaBot.Swoole.Progress
import TeaBot.Swoole.Refinement
import TeaBot.Captcha.FastLock
import TeaBot.Captcha.Deadline
import TeaBot.Captcha.Orphans
import TeaBot.Captcha.Deadlock
import TeaBot.Captcha.Verdict
import TeaBot.Captcha.Challenge
import TeaBot.Captcha.Unsent
import TeaBot.Captcha.CleanUp
import TeaBot.Captcha.LockNames
import TeaBot.Responder.Moderation
import TeaBot.Responder.Posts
import TeaBot.Config.Keys
import TeaBot.DebugFlag.Toggle
