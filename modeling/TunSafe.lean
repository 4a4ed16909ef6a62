import TunSafe.RateLimit.Basic
import TunSafe.RateLimit.Run
import TunSafe.RateLimit.Load
