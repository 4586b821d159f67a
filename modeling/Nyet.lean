import Nyet.Lib.Run
import Nyet.Lib.SlotScan
import Nyet.Lib.Chains
import Nyet.Lib.Reader
import Nyet.Lib.Parties
import Nyet.Lib.Trie
import Nyet.Lib.EditScript
import Nyet.Lib.Rounding
import Nyet.Lib.Binary32
import Nyet.Lib.Streak
import Nyet.Lib.Shannon
import Nyet.Lib.QuotedText
import Nyet.Lib.Json
import Nyet.RadixTree.Refinement
import Nyet.RadixTree.Promotion
import Nyet.RadixTree.Failure
import Nyet.Blocklist.AllowRows
import Nyet.Blocklist.RowFields
import Nyet.Blocklist.Framing
import Nyet.Blocklist.Learned
import Nyet.Blocklist.Dedup
import Nyet.Blocklist.Validator
import Nyet.Blocklist.RollupVerdicts
import Nyet.Blocklist.Creation
import Nyet.Blocklist.ReviewVerdicts
import Nyet.Cache.AnswerFreshness
import Nyet.Cache.AnswerMap
import Nyet.Cache.DnsCache
import Nyet.Cache.VerdictMap
import Nyet.Cache.Expiry
import Nyet.Cache.InsertFootprint
import Nyet.Packet.Answers
import Nyet.Packet.Labels
import Nyet.Packet.Message
import Nyet.Packet.ReplyText
import Nyet.Packet.Synthesised
import Nyet.Proxy.RateLimit
import Nyet.Proxy.RateRange
import Nyet.Proxy.FirstSighting
import Nyet.Proxy.Retry
import Nyet.Proxy.GravityRace
import Nyet.Proxy.ReloadRace
import Nyet.Proxy.LearnedReload
import Nyet.Proxy.ReloadPass
import Nyet.Proxy.Restarts
import Nyet.Proxy.Upstream
import Nyet.Proxy.Exchanges
import Nyet.Proxy.VerdictLifetime
import Nyet.Proxy.CacheTransparency
import Nyet.Proxy.RepeatQueries
import Nyet.Proxy.CachedAnswers
import Nyet.Proxy.ScoredOnce
import Nyet.Proxy.GravityChecks
import Nyet.Proxy.ReceiveSlots
import Nyet.Proxy.QueryLog
import Nyet.Proxy.LogLine
import Nyet.Proxy.GravityCalls
import Nyet.Proxy.PiGravity
import Nyet.Heuristics.LegitWords
import Nyet.Heuristics.Entropy
import Nyet.Heuristics.Signals
import Nyet.Heuristics.Score
import Nyet.Heuristics.Breakdown
import Nyet.Packet.AnswerBounds
import Nyet.Packet.CachedReply
import Nyet.Inspect.DamerauLevenshtein
import Nyet.Inspect.Assess
import Nyet.Inspect.Caught
import Nyet.Cache.LookupRace
import Nyet.Proxy.ReviewRace
import Nyet.Proxy.ReviewQueue
import Nyet.RadixTree.SplitBuffer
import Nyet.Proxy.FieldBuffer
