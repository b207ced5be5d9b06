import SatCat5Proofs.ListCore.Heap
import SatCat5Proofs.ListCore.Walk
import SatCat5Proofs.ListCore.HasLoop
import SatCat5Proofs.ListCore.Update
import SatCat5Proofs.ListCore.Lists
import SatCat5Proofs.ListCore.Cycles
import SatCat5Proofs.Ptp.PtpTime
import SatCat5Proofs.Ptp.SimClock
