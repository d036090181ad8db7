import DmclockServer.Invariants
import DmclockServer.Frame
import DmclockServer.Accounting
import DmclockServer.Compensation
import DmclockServer.Ladder
import DmclockServer.Spacing
import DmclockServer.Emptiness
import DmclockServer.IdleRealign
import DmclockServer.Repoll
import DmclockServer.Budget
import DmclockServer.Filter
import DmclockServer.Janitor
import DmclockServer.Membership
import DmclockServer.Filing
import DmclockServer.Order
import DmclockServer.Resources
