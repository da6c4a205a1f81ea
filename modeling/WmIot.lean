import WmIot.Lib.NorFlash
import WmIot.Lib.Crc32
import WmIot.Nvs.Item
import WmIot.Nvs.Sector
import WmIot.Nvs.SectorManager
import WmIot.Nvs.Storage
import WmIot.Nvs.Layout
import WmIot.Nvs.SectorSpec
import WmIot.Nvs.SectorCopy
import WmIot.Nvs.Lookup
import WmIot.Nvs.Tidy
import WmIot.Nvs.Scan
import WmIot.Nvs.Accounting
import WmIot.Nvs.SectorLoad
import WmIot.Nvs.SectorRuns
import WmIot.Nvs.Collect
import WmIot.Nvs.Writer
import WmIot.Nvs.Lists
import WmIot.Nvs.Eraser
import WmIot.Nvs.Mount
import WmIot.Nvs.Headers
import WmIot.Nvs.SerialOrder
import WmIot.Nvs.SerialLoad
import WmIot.Nvs.Runs
import WmIot.Lib.Picking
import WmIot.Nvs.Places
import WmIot.Nvs.GroupDeletion
import WmIot.Nvs.Linear
import WmIot.Lib.Keyed
import WmIot.Nvs.PlainValues
import WmIot.Nvs.Compaction
import WmIot.Nvs.Balance
import WmIot.Nvs.BlobSpace
import WmIot.Nvs.BlobEnds
import WmIot.Nvs.BlobLoops
import WmIot.Nvs.Iterator
import WmIot.Nvs.ReadOnly
import WmIot.Lib.Tiling
import WmIot.Heap.Realloc
import WmIot.Heap.Runs
import WmIot.Heap.Contents
import WmIot.Heap.Release
import WmIot.FtParam.PowerCut
import WmIot.FtParam.Frame
import WmIot.FtParam.RoundTrip
import WmIot.Lib.Trace
import WmIot.FtParam.Runs
import WmIot.Lib.Transition
import WmIot.Uart.TxRuns
import WmIot.Uart.RxRuns
import WmIot.Dhcp.Pool
import WmIot.Dhcp.Renewal
import WmIot.Dhcp.PoolSize
import WmIot.Dhcp.Options
import WmIot.Dhcp.Leases
import WmIot.Dns.Proxy
import WmIot.Dns.Server
import WmIot.Dns.Names
import WmIot.Dns.Packets
import WmIot.Dt.Unique
import WmIot.Event.Delivery
import WmIot.Slave.TxSync
import WmIot.Ota.Agree
import WmIot.Ota.Termination
import WmIot.Ota.Sectors
import WmIot.Ota.InPlace
import WmIot.Ota.Splitting
import WmIot.Ota.Retry
import WmIot.HalUart.TxRuns
import WmIot.HalUart.RxRuns
import WmIot.I2c.Wave
import WmIot.Crypto.Sharing
import WmIot.Lib.Framing
import WmIot.Crypto.Hash
import WmIot.Lib.CrcRegister
import WmIot.Crypto.Crc
import WmIot.Lib.Montgomery
import WmIot.Crypto.ExptMod
import WmIot.Lib.CrtPower
import WmIot.Crypto.RsaKeys
import WmIot.Nm.WifiRuns
import WmIot.Time.Inverse
import WmIot.Lib.CString
import WmIot.Time.TimeZone
import WmIot.Time.Local
import WmIot.Time.Months
import WmIot.Flash.EraseRegion
import WmIot.Flash.ReadWrite
import WmIot.Flash.Spi
import WmIot.Flash.External
import WmIot.Flash.ExternalRegion
import WmIot.Flash.Bounds
import WmIot.Flash.ErasePlan
import WmIot.Dma.Config
import WmIot.Eeprom.Nv24c0x
import WmIot.Pm.Restore
import WmIot.Touch.Language
import WmIot.Touch.Independence
import WmIot.PartitionTable.Agree
import WmIot.PartitionTable.Validation
import WmIot.PartitionTable.Acceptance
import WmIot.Utils.Strings
import WmIot.Utils.DataAlign
import WmIot.Utils.Numbers
import WmIot.Utils.HexArray
import WmIot.Http2.Uri
import WmIot.Mqtt.Uri
import WmIot.Fatfs.DiskFlash
import WmIot.Http2.Headers
import WmIot.Http2.Body
import WmIot.Http2.Events
import WmIot.Nm.SoftAp
import WmIot.PartitionTable.CustomFile
import WmIot.SpiMaster.Soft
import WmIot.Sdmmc.Capacity
import WmIot.Sdmmc.Transfer
import WmIot.Rtc.Clock
import WmIot.Rtc.Alarm
import WmIot.Hspi.Tx
import WmIot.Hspi.Rx
import WmIot.Lib.TextBuffer
import WmIot.Lib.Terminal
import WmIot.Cli.Shell
import WmIot.Cli.Line
import WmIot.Cli.Editor
import WmIot.Cli.Edits
import WmIot.Cli.Completion
import WmIot.Cli.Words
import WmIot.Cli.Sessions
import WmIot.Lib.Feistel
import WmIot.Crypto.Oaep
import WmIot.Crypto.Pkcs1
import WmIot.Crypto.Pss
import WmIot.Crypto.Rsaes
import WmIot.Crypto.Rsassa
