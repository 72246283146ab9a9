import ZeptOS.Lib.Bytes

/-!
# Constants of the kernel

The values of `kernel/param.h`, `kernel/fs.h` and `kernel/stat.h` that the modelled
functions read, under the names the headers give them.

Here and elsewhere a definition has the name of what it models, in camel case. With `From` or
`Loop` behind it, it is the loop of that function, and its number of rounds is an argument.
-/

namespace ZeptOS

/-! ## `param.h` -/

abbrev NPROC : Nat := 64
abbrev NOFILE : Nat := 16
abbrev NFILE : Nat := 100
abbrev NINODE : Nat := 50
abbrev NDEV : Nat := 10
abbrev ROOTDEV : Nat := 1
abbrev MAXARG : Nat := 32
abbrev MAXPATH : Nat := 128
/-- Maximum number of blocks any file-system operation writes. -/
abbrev MAXOPBLOCKS : Nat := 10
abbrev LOGSIZE : Nat := MAXOPBLOCKS * 3
abbrev NBUF : Nat := MAXOPBLOCKS * 3

instance : NeZero NPROC := ⟨by decide⟩
instance : NeZero NINODE := ⟨by decide⟩

/-! ## `fs.h` -/

abbrev BSIZE : Nat := 1024

abbrev NDIRECT : Nat := 60
abbrev NINDIRECT : Nat := BSIZE / 4
abbrev MAXFILE : Nat := NDIRECT + NINDIRECT
abbrev IPB : Nat := BSIZE / 256
abbrev BPB : Nat := BSIZE * 8
abbrev DIRSIZ : Nat := 14
abbrev ROOTINO : Nat := 1

theorem mod_BSIZE_lt (n : Nat) : n % BSIZE < BSIZE := Nat.mod_lt n (by decide)

/-! ## `stat.h` -/

abbrev T_DIR : Nat := 1
abbrev T_FILE : Nat := 2
abbrev T_DEVICE : Nat := 3

/-! ## Blocks -/

abbrev Block := Lib.Bytes

end ZeptOS
