import DTrace.Cg.Fold
import DTrace.Agg.Clear
import DTrace.Symtab.Lookup
import DTrace.Dof.Mapping
import DTrace.Dtprobed.Process
import DTrace.Dtprobed.Ioctl
import DTrace.Agg.PrintLlquantize
import DTrace.Uprobes.Underlying
import DTrace.Agg.Joined
import DTrace.Speculation.Delivery
import DTrace.Consume.Ring
import DTrace.Htab.Multimap
import DTrace.Tables.Strtab
import DTrace.Link.Resolve
import DTrace.Link.Hyphenate
import DTrace.Cg.Update
import DTrace.Subr.Index
import DTrace.Subr.Strtok
import DTrace.Subr.Inet6
import DTrace.Agg.PrintDatum
import DTrace.Cg.Field
import DTrace.Parser.IntConst
import DTrace.Proc.Pread
import DTrace.Parser.Declarator
import DTrace.Parser.Storage
import DTrace.Proc.SymPrefer
import DTrace.Dlibs.Tables
import DTrace.Tramp.Proc
import DTrace.Agg.Deviation
import DTrace.Subr.Basename
import DTrace.Subr.Substr
import DTrace.Agg.Quantize
import DTrace.Agg.Links
import DTrace.Cg.AggKeys
