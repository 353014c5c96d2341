import PhoebusBsp.Nand.Wire
import PhoebusBsp.Nand.Poison
import PhoebusBsp.Tftp.Integrity
import PhoebusBsp.Kconfig.Selects
import PhoebusBsp.Nand.BadBlock
import PhoebusBsp.Nand.Decode
import PhoebusBsp.Fc.DevStack
import PhoebusBsp.Fc.Removal
import PhoebusBsp.Dns.Query
import PhoebusBsp.Igmp.Clients
import PhoebusBsp.Tftp.Serve
import PhoebusBsp.Tftp.Receive
import PhoebusBsp.Kconfig.Rewrite
import PhoebusBsp.Igmp.Recycle
import PhoebusBsp.Igmp.Integrity
import PhoebusBsp.Igmp.RateLimit
import PhoebusBsp.Igmp.Statistic
import PhoebusBsp.Igmp.Weights
import PhoebusBsp.Igmp.BlackList
import PhoebusBsp.Igmp.Shortage
import PhoebusBsp.Igmp.SysTimer
import PhoebusBsp.Nat25.UseCount
import PhoebusBsp.G6.Learning
import PhoebusBsp.G6.Broadcast
import PhoebusBsp.Watchdog.Kicks
import PhoebusBsp.Watchdog.Timeout
