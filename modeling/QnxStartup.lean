import QnxStartup.Ranges
import QnxStartup.Machine
import QnxStartup.Bytes
import QnxStartup.RamList
import QnxStartup.Asinfo
import QnxStartup.AsPieces
import QnxStartup.AsSplit
import QnxStartup.Ram
import QnxStartup.FindRam
import QnxStartup.TopRam
import QnxStartup.FreeRam
import QnxStartup.HandedOut
import QnxStartup.Calloc
import QnxStartup.SecureRam
import QnxStartup.Sysram
import QnxStartup.RamCalls
import QnxStartup.FdtRaminfo
import QnxStartup.Syspage
import QnxStartup.SectionStore
import QnxStartup.SyspageRun
import QnxStartup.SectionBytes
import QnxStartup.Strings
import QnxStartup.TypedStrings
import QnxStartup.HwiAlloc
import QnxStartup.HwiChain
import QnxStartup.HwiWalk
import QnxStartup.Radix
import QnxStartup.PageTable
import QnxStartup.Descriptor
import QnxStartup.PageWalk
import QnxStartup.MapLoop
import QnxStartup.PageMap
import QnxStartup.Translate
import QnxStartup.Mapped
import QnxStartup.MapInit
import QnxStartup.MapRun
import QnxStartup.PagesMapped
import QnxStartup.ContigGroups
import QnxStartup.GicLpi
import QnxStartup.Interleaving
import QnxStartup.Smp
import QnxStartup.EfiMap
import QnxStartup.RamImport
import QnxStartup.EfiRaminfo
import QnxStartup.UefiRaminfo
import QnxStartup.Rifs
import QnxStartup.Ifs2
import QnxStartup.ElfSegment
import QnxStartup.ElfLoad
import QnxStartup.RangedRam
import QnxStartup.AvoidList
import QnxStartup.ReserveRam
import QnxStartup.MapResult
import QnxStartup.LoadIfs
import QnxStartup.RestoreInfo
import QnxStartup.WarmBoot
import QnxStartup.Callouts
import QnxStartup.Getopt
import QnxStartup.Strtoul
import QnxStartup.Ifs2Option
import QnxStartup.Smbios
import QnxStartup.Bootargs
import QnxStartup.TweakCmdline
import QnxStartup.SpinTable
import QnxStartup.SpinShim
import QnxStartup.FdtIntr
import QnxStartup.Ifs2Trust
import QnxStartup.HeapSort
import QnxStartup.EfiSort
import QnxStartup.EfiCommandLine
import QnxStartup.UefiExit
import QnxStartup.Memmove
import QnxStartup.NumberText
import QnxStartup.Kprintf
import QnxStartup.Calendar
import QnxStartup.CalcTime
import QnxStartup.BcdClocks
import QnxStartup.Mc146818
import QnxStartup.LongDivision
import QnxStartup.Qtime
import QnxStartup.GicEntries
import QnxStartup.GicIts
import QnxStartup.HwiGrow
import QnxStartup.Cursor
import QnxStartup.Acpi
import QnxStartup.ExclusiveWord
import QnxStartup.RingLog
import QnxStartup.GicLpiIts
import QnxStartup.Sendipi
import QnxStartup.RegisterBank
import QnxStartup.GicDistributor
import QnxStartup.GicCpu
import QnxStartup.CacheFlush
import QnxStartup.CpuCluster
import QnxStartup.SharedList
import QnxStartup.CpuInfo
import QnxStartup.Qrb2210
import QnxStartup.CacheCallouts
import QnxStartup.QoriqMsi
