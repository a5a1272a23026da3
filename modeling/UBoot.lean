import UBoot.LibGeneric.Crc32
import UBoot.Env.RedundantFlashRuns
import UBoot.Env.RedundantNand
import UBoot.Env.SetenvRefines
import UBoot.Env.Envm
import UBoot.LibGeneric.LmbRuns
import UBoot.Net.TftpDownload
import UBoot.Net.ReceiveBounds
import UBoot.Net.ReplyForms
import UBoot.M2s.EnvmWrite
import UBoot.Mtd.NandUtil
import UBoot.Flash.FlashWrite
import UBoot.Flash.SectRanges
import UBoot.CmdLoad.SRecordRoundTrip
import UBoot.CmdLoad.KermitRuns
import UBoot.Mtd.PartsRuns
import UBoot.Mtd.PartsTextRuns
import UBoot.Flash.CfiBursts
import UBoot.Tools.FwEnvRuns
import UBoot.Kinetis.EnvmSecure
import UBoot.Stm32.EnvmRuns
import UBoot.Disk.PartDosChain
import UBoot.Net.BootpOrder
import UBoot.Net.DhcpRuns
import UBoot.Image.MultiRoundTrip
import UBoot.Fs.FatContents
import UBoot.Fs.FatDirSearch
import UBoot.Fs.Jffs2Contents
import UBoot.Net.NfsRuns
import UBoot.LibGeneric.LmbFailures
import UBoot.Env.RedundantEepromRuns
import UBoot.Image.BootmRuns
import UBoot.Tools.FwSetenvContract
import UBoot.Flash.CmdMemTruthful
import UBoot.Tools.FwFlashRewrite
import UBoot.Image.Update
import UBoot.LibGeneric.LmbAlloc
import UBoot.Env.GetenvR
import UBoot.CmdLoad.SRecordReads
import UBoot.Mtd.PartsBuffer
import UBoot.Image.LoadOs
import UBoot.Main.LineBounds
import UBoot.Main.LineHistory
import UBoot.Main.Dispatch
import UBoot.A2f.EnvmPages
import UBoot.Lpc.SectorSearch
import UBoot.Env.EnvEnvm
import UBoot.Flash.CfiSector
import UBoot.Net.NfsPath
import UBoot.Net.DnsAnswers
import UBoot.Net.NfsStale
import UBoot.Net.NfsBounds
import UBoot.Net.BootpBounds
import UBoot.Flash.UpdateProtect
import UBoot.Fs.VfatName
import UBoot.LibGeneric.Circbuf
import UBoot.Console.Iomux
import UBoot.Fs.Jffs2Nand
import UBoot.Image.FdtMemory
import UBoot.Disk.PartEfi
import UBoot.Disk.PartDosEnds
import UBoot.Env.HwconfigQueries
import UBoot.Main.AutoCompleteRight
import UBoot.Fs.Jffs2ScanLists
import UBoot.Ram.Memsize
import UBoot.Eeprom.CmdEeprom
import UBoot.Spi.Stmicro
import UBoot.Spi.EnvSf
import UBoot.Spi.Sst
import UBoot.Lib.Records
import UBoot.Arm.Bootm
import UBoot.Lib.Wiring
import UBoot.Ram.CmdMem
import UBoot.Image.CmdFdt
import UBoot.Image.CmdFdtPrint
import UBoot.Image.CmdFdtBounds
import UBoot.Usb.ParseConfigSettings
import UBoot.Fs.Jffs2SummaryRuns
import UBoot.Net.SetIP
import UBoot.Net.Cdp
import UBoot.Lib.Calendar
import UBoot.Rtc.Date
import UBoot.Disk.PartAmiga
import UBoot.Mtd.EraseOpts
import UBoot.Env.EnvOnenand
import UBoot.Tools.Kwbimage
import UBoot.Usb.Usbtty
import UBoot.Spi.Atmel
import UBoot.Mtd.CmdNandRight
import UBoot.Mtd.NandRuns
