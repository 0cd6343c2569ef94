import Rkboot.Compression.InflateFixed
import Rkboot.Compression.InflateDynamic
import Rkboot.Sched.Waiting
import Rkboot.Dram.Training
import Rkboot.Dram.DramSize
import Rkboot.Dramstage.FdtTree
import Rkboot.Aarch64.Unmap
import Rkboot.Dramstage.NvmeStream
import Rkboot.Dramstage.PayloadPartition
import Rkboot.Dramstage.BlobExclusion
import Rkboot.Drivers.Handover
import Rkboot.Usb.BulkCommands
import Rkboot.Usb.Ep0
import Rkboot.Sramstage.SpiFlash
import Rkboot.Sramstage.Memtest
import Rkboot.Compression.ZstdDistributionFormat
import Rkboot.Tools.RegtoolWords
import Rkboot.Compression.ZstdXxh64
import Rkboot.Compression.ZstdMalformedLiterals
import Rkboot.Compression.ZstdSequenceStream
