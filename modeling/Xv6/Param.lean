import Mathlib.Algebra.Group.Int.Defs
import Mathlib.Algebra.Group.Nat.Defs
import Mathlib.Data.Nat.Basic

/- The constants of param.h and fs.h that the models below share. -/
namespace Xv6

abbrev NPROC : Nat := 64
abbrev NOFILE : Nat := 16
abbrev NFILE : Nat := 100
abbrev NINODE : Nat := 50
abbrev NDEV : Nat := 10
abbrev MAXOPBLOCKS : Nat := 10
abbrev LOGSIZE : Nat := MAXOPBLOCKS * 3
abbrev NBUF : Nat := MAXOPBLOCKS * 3
abbrev FSSIZE : Nat := 40000
abbrev MAXTICKET : Nat := 100000
abbrev NTHRE : Nat := 32
abbrev MAXARG : Nat := 32

abbrev BSIZE : Nat := 512
abbrev NDIRECT : Nat := 10
abbrev NINDIRECT : Nat := BSIZE / 4
abbrev NDOUINDIRECT : Nat := NINDIRECT * NINDIRECT
abbrev NTRIINDIRECT : Nat := NINDIRECT * NINDIRECT * NINDIRECT
abbrev MAXFILE : Nat := NDIRECT + NINDIRECT + NDOUINDIRECT + NTRIINDIRECT

end Xv6
