import FpgaConfigSpace.MasterCycles
import FpgaConfigSpace.MasterExecution
import FpgaConfigSpace.Link
import FpgaConfigSpace.SlaveMemory
import FpgaConfigSpace.SlaveFaults
import FpgaConfigSpace.SdbfsBounded
import FpgaConfigSpace.VmeProbe
import FpgaConfigSpace.VmeWindow
import FpgaConfigSpace.PcieRecords
import FpgaConfigSpace.SdbfsReadLoop
import FpgaConfigSpace.SdbfsInodeCache
import FpgaConfigSpace.SdbfsReaddir
import FpgaConfigSpace.SdbfsModes
import FpgaConfigSpace.SdbfsZeroBased
import FpgaConfigSpace.SdbfsMount
import FpgaConfigSpace.SdbfsDevList
import FpgaConfigSpace.SdbfsFwrite
import FpgaConfigSpace.SdbExtract
import FpgaConfigSpace.SdbExtractRoundTrip
import FpgaConfigSpace.GensdbfsMounted
import FpgaConfigSpace.SpecWb
import FpgaConfigSpace.MasterIsolation
import FpgaConfigSpace.SdbReadCat
import FpgaConfigSpace.GensdbfsBrowsed
import FpgaConfigSpace.SdbRead
import FpgaConfigSpace.Lib.Blocks
import FpgaConfigSpace.Lib.FileWrites
import FpgaConfigSpace.Gensdbfs
import FpgaConfigSpace.GensdbfsApart
import FpgaConfigSpace.GensdbfsScan
import FpgaConfigSpace.GensdbfsErase
import FpgaConfigSpace.GensdbfsFit
import FpgaConfigSpace.GensdbfsFrame
import FpgaConfigSpace.GensdbfsRanges
import FpgaConfigSpace.GensdbfsMoved
import FpgaConfigSpace.GensdbfsCount
import FpgaConfigSpace.GensdbfsAlign
import FpgaConfigSpace.GensdbfsLiteral
import FpgaConfigSpace.Lib.FileCursor
import FpgaConfigSpace.Lib.ListHead
import FpgaConfigSpace.DeviceLinks
import FpgaConfigSpace.SdbfsLedger
import FpgaConfigSpace.SdbIomem
import FpgaConfigSpace.SdbfsFailing
import FpgaConfigSpace.SdbfsHistory
import FpgaConfigSpace.SdbfsSequence
