import Otp.Compiler.BeamBounds.Arith
import Otp.Compiler.BeamBounds.Bxor
import Otp.Compiler.BeamBounds.Relop
import Otp.Compiler.BeamBounds.Shift
import Otp.Compiler.BeamBounds.Tight
import Otp.Compiler.BeamSsaCodegen.OrderMoves
import Otp.Compiler.BeamTypes.Lattice
import Otp.Erts.Big.Shift
import Otp.Erts.BinarySearch.Exact
import Otp.Erts.BinarySearch.Leftmost
import Otp.Erts.Bits.Exact
import Otp.Erts.DbHash.Counters
import Otp.Erts.DbTree.Join
import Otp.Erts.DbTree.Runs
import Otp.Erts.Integers.Lists
import Otp.Mnesia.FragHash
import Otp.Mnesia.Locker
import Otp.Parsetools.Leex.Minimise
import Otp.Ssl.DtlsHandshake.Reassembly
import Otp.Ssl.DtlsRecord
import Otp.Ssl.SessionTicket.Replay
import Otp.Stdlib.Calendar.Rfc3339
import Otp.Stdlib.Dets.Runs
import Otp.Stdlib.Filelib
import Otp.Stdlib.GbTrees.Refine
import Otp.Stdlib.GenStatem.Events
import Otp.Stdlib.Graph.Consistency
import Otp.Stdlib.Lists.Keysort
import Otp.Stdlib.Queue.Balance
import Otp.Stdlib.Supervisor
