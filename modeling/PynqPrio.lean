import PynqPrio.IicDriver
import PynqPrio.IicRules
import PynqPrio.IicCursor
import PynqPrio.IicBufferSafety
import PynqPrio.IicEncoding
import PynqPrio.IicTracking
import PynqPrio.IicRunTracking
import PynqPrio.IicCore
import PynqPrio.IicCompletion
import PynqPrio.IicTransmit
import PynqPrio.IicTransfers
import PynqPrio.DriverLayers
import PynqPrio.IicBus
import PynqPrio.IicEndianness
import PynqPrio.GpioDriver
import PynqPrio.GpioInterruptEnable
import PynqPrio.GpioProbe
import PynqPrio.GpioDispatch
import PynqPrio.GpioInputs
import PynqPrio.GpioLostEdges
import PynqPrio.GpioRisingEdges
import PynqPrio.GpioPins
import PynqPrio.CircularBuffers
import PynqPrio.UartDriver
import PynqPrio.UartCore
import PynqPrio.UartRules
import PynqPrio.UartTransmit
import PynqPrio.UartStall
import PynqPrio.UartErrors
import PynqPrio.UartProbe
import PynqPrio.UartClock
import PynqPrio.UartIds
import PynqPrio.GpioPower
import PynqPrio.GpioLifeCycle
import PynqPrio.InterleavedPrograms
import PynqPrio.GpioChannels
import PynqPrio.ProofOutlines
import PynqPrio.IicPower
import PynqPrio.IicPowerCounts
import PynqPrio.IicDeviceRules
import PynqPrio.IicFifoLevels
import PynqPrio.IicInterruptEnables
import PynqPrio.IicReads
import PynqPrio.GpioNoInit
import PynqPrio.UartProbeFailure
import PynqPrio.UartConsole
import PynqPrio.UartDrain
import PynqPrio.IicAcknowledge
import PynqPrio.IicReadEnd
import PynqPrio.IicReadOrder
import PynqPrio.GpioBatchWrites
import PynqPrio.ByteStrings
import PynqPrio.ReadBack
import PynqPrio.KeyedLists
import PynqPrio.PathStores
import PynqPrio.DtcTree
import PynqPrio.DtcMerge
import PynqPrio.DtcSource
import PynqPrio.DtcPaths
import PynqPrio.DtcPositions
import PynqPrio.DtcPhandles
import PynqPrio.DtcReferences
import PynqPrio.DtcExplicitPhandles
import PynqPrio.DtcFlatten
import PynqPrio.DtcUnflatten
import PynqPrio.DtcRoundTrip
import PynqPrio.DtcBlobs
import PynqPrio.DtcSafety
import PynqPrio.FdtRead
import PynqPrio.FdtTags
import PynqPrio.FdtLookup
import PynqPrio.FdtBlobs
import PynqPrio.FdtPhandles
import PynqPrio.FdtReferences
import PynqPrio.FdtSafety
import PynqPrio.FdtWrite
import PynqPrio.FdtSequence
