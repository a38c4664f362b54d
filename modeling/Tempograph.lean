import Tempograph.TgVersusLru
import Tempograph.TgAlias
import Tempograph.FrameCounts
import Tempograph.LruMemory
import Tempograph.ArcMemory
import Tempograph.TgScan
import Tempograph.IntRange
import Tempograph.TgBounds
import Tempograph.SieveCost
import Tempograph.LfuPollution
import Tempograph.AddressTraces
import Tempograph.Plots
import Tempograph.CacheSieve
import Tempograph.TgAgreement
import Tempograph.TgVictimPages
