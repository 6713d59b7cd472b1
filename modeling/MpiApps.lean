import MpiApps.Lib.Framing
import MpiApps.Lib.BinaryFormat
import MpiApps.Codec.BitBuffer
import MpiApps.Codec.FloatBits
import MpiApps.Codec.Arith
import MpiApps.Codec.Ieee
import MpiApps.Codec.IeeeOrder
import MpiApps.Codec.IeeeSign
import MpiApps.Codec.Compress
import MpiApps.Codec.Decompress
import MpiApps.Codec.Completeness
import MpiApps.Codec.Accuracy
import MpiApps.Codec.ErrorBound
import MpiApps.Codec.OnlyPrediction
import MpiApps.Codec.Bytewise
import MpiApps.Codec.BytewiseHistory
import MpiApps.Codec.BytewiseReads
import MpiApps.Codec.Mask
import MpiApps.Codec.MaskWords
import MpiApps.Codec.MaskFraming
import MpiApps.Codec.Robustness
import MpiApps.Codec.WordSize
import MpiApps.Codec.Ratio
import MpiApps.Codec.MaskDelivery
import MpiApps.Codec.Overrun
import MpiApps.Lib.Secded
import MpiApps.Fault.Hamming
import MpiApps.Fault.HammingChars
import MpiApps.Fault.HammingPositions
import MpiApps.Lib.Windows
import MpiApps.Fault.Repair
import MpiApps.Lib.MessagePassing
import MpiApps.Lib.Retransmission
import MpiApps.Fault.BcastAbft
import MpiApps.Lib.Collectives
import MpiApps.Lib.CollectivePrograms
import MpiApps.Lib.Crc
import MpiApps.Fault.Detection
import MpiApps.Fault.ExactDelivery
import MpiApps.Fault.AbftCalls
import MpiApps.Lib.Replicas
import MpiApps.Lib.Rounds
import MpiApps.Lib.Neighbours
import MpiApps.Lib.Stores
import MpiApps.Apps.Himeno
import MpiApps.Apps.HimenoSolver
import MpiApps.Apps.HimenoSweeps
import MpiApps.Lib.Elimination
import MpiApps.Apps.Lu
import MpiApps.Apps.LuAbft
import MpiApps.Lib.Lloyd
import MpiApps.Apps.Kmeans
import MpiApps.Apps.KmeansAbft
import MpiApps.Apps.MatMul
import MpiApps.Apps.MatMulAbft
import MpiApps.Lib.Scanf
import MpiApps.Apps.KmeansReader
import MpiApps.Apps.PingPong
import MpiApps.Apps.PingPongReader
import MpiApps.Apps.PingPongIntact
import MpiApps.Apps.PingPongPlain
import MpiApps.Transfer.Messages
import MpiApps.Transfer.SmallDataset
import MpiApps.Transfer.Resend
import MpiApps.Transfer.BcastCrcHamming
import MpiApps.Transfer.BcastMaskCrc
import MpiApps.Transfer.BcastBytewise
import MpiApps.Transfer.CompressedCalls
import MpiApps.Apps.MatMulFiles
import MpiApps.Apps.KmeansComp
import MpiApps.Apps.LuComp
import MpiApps.Apps.MatMulComp
import MpiApps.Transfer.BcastCrc
