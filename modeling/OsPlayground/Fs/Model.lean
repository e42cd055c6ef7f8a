import Mathlib.Data.List.Range
import OsPlayground.Lib.Words

/-!
# Blocks and inodes

The lower half of `fs.c`: the block allocator, the inodes and their contents, on the bytes of the
disk. `bread` gives the bytes of a block and `log_write` replaces them.

* `Inode`, `getDinode`, `putDinode`: inodes and their form on the disk.
* `Store`: the superblock, the disk and the valid entries of the inode cache.
* `balloc`, `bfree`, `ialloc`, `iupdate`, `ilock`, `bmap`, `itrunc`, `iput`, `readi`, `writei`: the
  functions; an error is the message of a panic.

A function that is given an inode works on the copy in the cache, which `ilock` has read before.
-/

namespace OsPlayground

namespace Fs

open Lib

/-- The constants of `fs.h` and `stat.h`. -/
abbrev BSIZE : ℕ := 512
abbrev NDIRECT : ℕ := 12
abbrev NINDIRECT : ℕ := BSIZE / 4
abbrev MAXFILE : ℕ := NDIRECT + NINDIRECT
abbrev IPB : ℕ := BSIZE / 64
abbrev BPB : ℕ := BSIZE * 8
abbrev T_DIR : ℕ := 1
abbrev T_FILE : ℕ := 2
abbrev T_DEV : ℕ := 3

/-- `struct superblock`. -/
structure Superblock where
  size : ℕ
  nblocks : ℕ
  ninodes : ℕ
  nlog : ℕ
  logstart : ℕ
  inodestart : ℕ
  bmapstart : ℕ
  deriving DecidableEq

/-- `IBLOCK` and `BBLOCK`. -/
def IBLOCK (i : ℕ) (sb : Superblock) : ℕ := i / IPB + sb.inodestart

/-- The block of the bitmap with the bit of block `b`. -/
def BBLOCK (b : ℕ) (sb : Superblock) : ℕ := b / BPB + sb.bmapstart

/-- A `struct dinode`, or the copy of one in a `struct inode`. -/
structure Inode where
  type : ℕ := 0
  major : ℕ := 0
  minor : ℕ := 0
  nlink : ℕ := 0
  size : ℕ := 0
  addrs : ℕ → ℕ := fun _ => 0

/-- The byte `j` of a `struct dinode`. -/
def dinodeByte (r : Inode) (j : ℕ) : ℕ :=
  if j < 2 then byteOf r.type j
  else if j < 4 then byteOf r.major (j - 2)
  else if j < 6 then byteOf r.minor (j - 4)
  else if j < 8 then byteOf r.nlink (j - 6)
  else if j < 12 then byteOf r.size (j - 8)
  else byteOf (r.addrs ((j - 12) / 4)) ((j - 12) % 4)

/-- `(struct dinode*)blk + k`. -/
def getDinode (blk : Bytes) (k : ℕ) : Inode where
  type := getLE blk (64 * k) 2
  major := getLE blk (64 * k + 2) 2
  minor := getLE blk (64 * k + 4) 2
  nlink := getLE blk (64 * k + 6) 2
  size := getLE blk (64 * k + 8) 4
  addrs i := if i ≤ NDIRECT then getLE blk (64 * k + 12 + 4 * i) 4 else 0

/-- Assign to `*((struct dinode*)blk + k)`. -/
def putDinode (blk : Bytes) (k : ℕ) (r : Inode) : Bytes := fun i =>
  if 64 * k ≤ i ∧ i < 64 * k + 64 then dinodeByte r (i - 64 * k) else blk i

/-- The blocks of the disk as the cache and the log show them, and the inodes in memory. -/
structure Store where
  sb : Superblock
  disk : ℕ → Bytes
  /-- The valid entries of `icache`, by number. -/
  mem : ℕ → Option Inode
  /-- History variable: the blocks that `bfree` has freed, in order. -/
  freed : List ℕ := []

/-- `readsb`. -/
def readsb (disk : ℕ → Bytes) : Superblock where
  size := getLE (disk 1) 0 4
  nblocks := getLE (disk 1) 4 4
  ninodes := getLE (disk 1) 8 4
  nlog := getLE (disk 1) 12 4
  logstart := getLE (disk 1) 16 4
  inodestart := getLE (disk 1) 20 4
  bmapstart := getLE (disk 1) 24 4

namespace Store

/-- The inode on the disk. -/
def dinode (fs : Store) (inum : ℕ) : Inode := getDinode (fs.disk (IBLOCK inum fs.sb)) (inum % IPB)

/-- The inode: the copy in the cache if there is one. -/
def ip (fs : Store) (inum : ℕ) : Inode := (fs.mem inum).getD (fs.dinode inum)

/-- Assign to fields of `*ip`. -/
def setIp (inum : ℕ) (f : Inode → Inode) (fs : Store) : Store :=
  { fs with mem := Function.update fs.mem inum (some (f (fs.ip inum))) }

/-- `ip->valid = 0`; the entry is empty or will be recycled. -/
def evict (inum : ℕ) (fs : Store) : Store := { fs with mem := Function.update fs.mem inum none }

/-- Change a block and call `log_write`. -/
def write (b : ℕ) (blk : Bytes) (fs : Store) : Store :=
  { fs with disk := Function.update fs.disk b blk }

/-- The bit of the free map for the block `b`. -/
def bit (fs : Store) (b : ℕ) : Bool := getBit (fs.disk (BBLOCK b fs.sb)) (b % BPB)

end Store

/-! ## Blocks -/

/-- `bzero`. -/
def bzero (b : ℕ) (fs : Store) : Store := fs.write b fun _ => 0

/-- The loops of `balloc` over the blocks of the free map and their bits. -/
def freeBlock (fs : Store) : Option ℕ :=
  (List.range ((fs.sb.size + BPB - 1) / BPB)).findSome? fun j =>
    ((List.range BPB).find? fun bi => decide (j * BPB + bi < fs.sb.size) &&
      !getBit (fs.disk (BBLOCK (j * BPB) fs.sb)) bi).map (j * BPB + ·)

/-- `balloc`. -/
def balloc (fs : Store) : Except String (ℕ × Store) :=
  match freeBlock fs with
  | some b =>
    .ok (b, bzero b (fs.write (BBLOCK b fs.sb) (setBit (fs.disk (BBLOCK b fs.sb)) (b % BPB))))
  | none => .error "balloc: out of blocks"

/-- `bfree`, which reads the superblock again. -/
def bfree (b : ℕ) (fs : Store) : Except String Store :=
  let fs := { fs with sb := readsb fs.disk }
  if getBit (fs.disk (BBLOCK b fs.sb)) (b % BPB) = false then .error "freeing free block"
  else .ok { fs.write (BBLOCK b fs.sb) (clearBit (fs.disk (BBLOCK b fs.sb)) (b % BPB)) with
    freed := fs.freed ++ [b] }

/-! ## Inodes -/

/-- `ialloc`, up to `iget`. -/
def ialloc (type : ℕ) (fs : Store) : Except String (ℕ × Store) :=
  match (List.range' 1 (fs.sb.ninodes - 1)).find? fun i => (fs.dinode i).type = 0 with
  | some i =>
    .ok (i, fs.write (IBLOCK i fs.sb)
      (putDinode (fs.disk (IBLOCK i fs.sb)) (i % IPB) { type := type }))
  | none => .error "ialloc: no inodes"

/-- `iupdate`. -/
def iupdate (inum : ℕ) (fs : Store) : Store :=
  fs.write (IBLOCK inum fs.sb)
    (putDinode (fs.disk (IBLOCK inum fs.sb)) (inum % IPB) (fs.ip inum))

/-- `ilock`. -/
def ilock (inum : ℕ) (fs : Store) : Except String Store :=
  match fs.mem inum with
  | some _ => .ok fs
  | none =>
    let fs := fs.setIp inum id
    if (fs.ip inum).type = 0 then .error "ilock: no type" else .ok fs

/-- `if((addr = ip->addrs[k]) == 0) ip->addrs[k] = addr = balloc(ip->dev)`. -/
def mapAddr (inum k : ℕ) (fs : Store) : Except String (ℕ × Store) :=
  if (fs.ip inum).addrs k = 0 then
    (balloc fs).map fun (addr, fs) =>
      (addr, fs.setIp inum fun r => { r with addrs := Function.update r.addrs k addr })
  else .ok ((fs.ip inum).addrs k, fs)

/-- `if((addr = a[j]) == 0)`, and what follows it, for the indirect block `b`. -/
def mapIndirect (b j : ℕ) (fs : Store) : Except String (ℕ × Store) :=
  if getLE (fs.disk b) (4 * j) 4 = 0 then
    (balloc fs).map fun (addr, fs) => (addr, fs.write b (putLE (fs.disk b) (4 * j) 4 addr))
  else .ok (getLE (fs.disk b) (4 * j) 4, fs)

/-- `bmap`. -/
def bmap (inum bn : ℕ) (fs : Store) : Except String (ℕ × Store) :=
  if bn < NDIRECT then mapAddr inum bn fs
  else if bn - NDIRECT < NINDIRECT then
    (mapAddr inum NDIRECT fs).bind fun (b, fs) => mapIndirect b (bn - NDIRECT) fs
  else .error "bmap: out of range"

/-- The body of the first loop of `itrunc`. -/
def truncDirect (inum : ℕ) (fs : Store) (i : ℕ) : Except String Store :=
  if (fs.ip inum).addrs i ≠ 0 then
    (bfree ((fs.ip inum).addrs i) fs).map fun fs =>
      fs.setIp inum fun r => { r with addrs := Function.update r.addrs i 0 }
  else .ok fs

/-- The body of the second loop of `itrunc`, for the indirect block `b`. -/
def truncEntry (b : ℕ) (fs : Store) (j : ℕ) : Except String Store :=
  if getLE (fs.disk b) (4 * j) 4 ≠ 0 then bfree (getLE (fs.disk b) (4 * j) 4) fs else .ok fs

/-- `if(ip->addrs[NDIRECT])` in `itrunc`. -/
def truncIndirect (inum : ℕ) (fs : Store) : Except String Store :=
  if (fs.ip inum).addrs NDIRECT ≠ 0 then
    ((List.range NINDIRECT).foldlM (truncEntry ((fs.ip inum).addrs NDIRECT)) fs).bind fun fs' =>
      (bfree ((fs.ip inum).addrs NDIRECT) fs').map fun fs' =>
        fs'.setIp inum fun r => { r with addrs := Function.update r.addrs NDIRECT 0 }
  else .ok fs

/-- `itrunc`. -/
def itrunc (inum : ℕ) (fs : Store) : Except String Store :=
  ((List.range NDIRECT).foldlM (truncDirect inum) fs).bind fun fs =>
    (truncIndirect inum fs).map fun fs =>
      iupdate inum (fs.setIp inum fun r => { r with size := 0 })

/-- `iput` on an entry with `ref` references, up to the last `acquire`. -/
def iput (inum ref : ℕ) (fs : Store) : Except String Store :=
  match fs.mem inum with
  | some r =>
    if r.nlink = 0 ∧ ref = 1 then
      (itrunc inum fs).map fun fs =>
        (iupdate inum (fs.setIp inum fun r => { r with type := 0 })).evict inum
    else .ok fs
  | none => .ok fs

/-! ## Contents -/

/-- What `readi` and `writei` return: -1, the value of a device function, or the bytes. -/
inductive Reply
  | failed
  | device (major : ℕ)
  | read (data : List ℕ)
  | written (n : ℕ)
  deriving DecidableEq

/-- The loop of `readi`; every round handles at least one byte, so `n` rounds are enough. -/
def readLoop (inum : ℕ) : ℕ → ℕ → ℕ → Store → Except String (List ℕ × Store)
  | 0, _, _, fs => .ok ([], fs)
  | fuel + 1, off, n, fs =>
    if n = 0 then .ok ([], fs)
    else
      (bmap inum (off / BSIZE) fs).bind fun (b, fs) =>
        let m := min n (BSIZE - off % BSIZE)
        let data := (List.range m).map fun i => fs.disk b (off % BSIZE + i)
        (readLoop inum fuel (off + m) (n - m) fs).map fun (rest, fs) => (data ++ rest, fs)

/-- `readi`. The arguments are 32 bits wide. -/
def readi (inum off n : ℕ) (fs : Store) : Except String (Reply × Store) :=
  if (fs.ip inum).type = T_DEV then .ok (.device (fs.ip inum).major, fs)
  else if off > (fs.ip inum).size ∨ (off + n) % 2 ^ 32 < off then .ok (.failed, fs)
  else
    let n := if (off + n) % 2 ^ 32 > (fs.ip inum).size then (fs.ip inum).size - off else n
    (readLoop inum n off n fs).map fun (data, fs) => (.read data, fs)

/-- `memmove(bp->data + o, src, m)`, where `src` has at least `m` bytes. -/
def memmove (blk : Bytes) (o m : ℕ) (src : List ℕ) : Bytes := fun i =>
  if o ≤ i ∧ i < o + m then src.getD (i - o) 0 else blk i

/-- The loop of `writei`, with the offset behind the last byte. -/
def writeLoop (inum : ℕ) : ℕ → ℕ → List ℕ → Store → Except String (ℕ × Store)
  | 0, off, _, fs => .ok (off, fs)
  | fuel + 1, off, src, fs =>
    if src.length = 0 then .ok (off, fs)
    else
      (bmap inum (off / BSIZE) fs).bind fun (b, fs) =>
        let m := min src.length (BSIZE - off % BSIZE)
        writeLoop inum fuel (off + m) (src.drop m)
          (fs.write b (memmove (fs.disk b) (off % BSIZE) m src))

/-- `writei`. -/
def writei (inum off : ℕ) (src : List ℕ) (fs : Store) : Except String (Reply × Store) :=
  let n := src.length
  if (fs.ip inum).type = T_DEV then .ok (.device (fs.ip inum).major, fs)
  else if off > (fs.ip inum).size ∨ (off + n) % 2 ^ 32 < off then .ok (.failed, fs)
  else if (off + n) % 2 ^ 32 > MAXFILE * BSIZE then .ok (.failed, fs)
  else
    (writeLoop inum n off src fs).map fun (off, fs) =>
      if n > 0 ∧ off > (fs.ip inum).size then
        (.written n, iupdate inum (fs.setIp inum fun r => { r with size := off }))
      else (.written n, fs)

end Fs

end OsPlayground
