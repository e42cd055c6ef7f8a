import OsPlayground.Fs.Model

/-!
# `mkfs.c`

* `Image`: the image, and the counters of `mkfs`.
* `ialloc`, `iappend`, `balloc`: the functions; an error is an `assert` that fails or an `exit(1)`.
* `main`: the program, on a list of files that can be opened and read.

`xshort` and `xint` give the bytes of a word in the order of `Lib.getLE`.
-/

namespace OsPlayground

namespace Mkfs

open Lib Fs

/-- The constants of `param.h` and `mkfs.c`. -/
abbrev FSSIZE : ℕ := 1000
abbrev LOGSIZE : ℕ := 30
abbrev NINODES : ℕ := 200
abbrev ROOTINO : ℕ := 1
abbrev DIRSIZ : ℕ := 14
abbrev nbitmap : ℕ := FSSIZE / (BSIZE * 8) + 1
abbrev ninodeblocks : ℕ := NINODES / IPB + 1
abbrev nlog : ℕ := LOGSIZE
abbrev nmeta : ℕ := 2 + nlog + ninodeblocks + nbitmap
abbrev nblocks : ℕ := FSSIZE - nmeta

/-- The superblock. -/
def sb : Superblock where
  size := FSSIZE
  nblocks := nblocks
  ninodes := NINODES
  nlog := nlog
  logstart := 2
  inodestart := 2 + nlog
  bmapstart := 2 + nlog + ninodeblocks

/-- The bytes of a `struct superblock`. -/
def superBytes (s : Superblock) : Bytes := fun o =>
  byteOf ([s.size, s.nblocks, s.ninodes, s.nlog, s.logstart, s.inodestart, s.bmapstart].getD (o / 4) 0)
    (o % 4)

/-- The image file, with `freeinode` and `freeblock`. -/
structure Image where
  disk : ℕ → Bytes
  freeinode : ℕ
  freeblock : ℕ

/-- `wsect`. -/
def Image.wsect (sec : ℕ) (buf : Bytes) (img : Image) : Image :=
  { img with disk := Function.update img.disk sec buf }

/-- `rsect`; a read behind the last block gives nothing. -/
def rsect (sec : ℕ) (img : Image) : Except String Bytes :=
  if sec < FSSIZE then .ok (img.disk sec) else .error "read"

/-- `rinode`. -/
def rinode (inum : ℕ) (img : Image) : Except String Inode :=
  (rsect (IBLOCK inum sb) img).map fun buf => getDinode buf (inum % IPB)

/-- `winode`. -/
def winode (inum : ℕ) (r : Inode) (img : Image) : Except String Image :=
  (rsect (IBLOCK inum sb) img).map fun buf =>
    img.wsect (IBLOCK inum sb) (putDinode buf (inum % IPB) r)

/-- `ialloc`. -/
def ialloc (type : ℕ) (img : Image) : Except String (ℕ × Image) :=
  (winode img.freeinode { type := type, nlink := 1 } { img with freeinode := img.freeinode + 1 }).map
    fun img' => (img.freeinode, img')

/-- The first `used` bits are set. -/
def usedMap : ℕ → Bytes
  | 0 => fun _ => 0
  | used + 1 => setBit (usedMap used) used

/-- `balloc`. -/
def balloc (used : ℕ) (img : Image) : Except String Image :=
  if BSIZE * 8 ≤ used then .error "assert: used < BSIZE*8"
  else .ok (img.wsect sb.bmapstart (usedMap used))

/-- `if(xint(din.addrs[k]) == 0) din.addrs[k] = xint(freeblock++)`, and the address. -/
def takeAddr (k : ℕ) (din : Inode) (img : Image) : ℕ × Inode × Image :=
  if din.addrs k = 0 then
    (img.freeblock, { din with addrs := Function.update din.addrs k img.freeblock },
      { img with freeblock := img.freeblock + 1 })
  else (din.addrs k, din, img)

/-- The entry `j` of the indirect block `b`, which is made if it is 0. -/
def takeEntry (b j : ℕ) (indirect : Bytes) (img : Image) : ℕ × Image :=
  if getLE indirect (4 * j) 4 = 0 then
    (img.freeblock, { img with freeblock := img.freeblock + 1 }.wsect b
      (putLE indirect (4 * j) 4 img.freeblock))
  else (getLE indirect (4 * j) 4, img)

/-- The part of the loop of `iappend` that finds the block `x` of the file. -/
def findBlock (fbn : ℕ) (din : Inode) (img : Image) : Except String (ℕ × Inode × Image) :=
  if MAXFILE ≤ fbn then .error "assert: fbn < MAXFILE"
  else if fbn < NDIRECT then .ok (takeAddr fbn din img)
  else
    match takeAddr NDIRECT din img with
    | (b, din, img) => (rsect b img).map fun indirect =>
      match takeEntry b (fbn - NDIRECT) indirect img with
      | (x, img) => (x, din, img)

/-- The block `x` of the file, and its bytes. -/
def readBlock (fbn : ℕ) (din : Inode) (img : Image) : Except String (ℕ × Bytes × Inode × Image) :=
  (findBlock fbn din img).bind fun (x, din, img) =>
    (rsect x img).map fun buf => (x, buf, din, img)

/-- The loop of `iappend`; every round handles at least one byte. -/
def appendLoop : ℕ → ℕ → List ℕ → Inode → Image → Except String (ℕ × Inode × Image)
  | 0, off, _, din, img => .ok (off, din, img)
  | fuel + 1, off, p, din, img =>
    if p.length = 0 then .ok (off, din, img)
    else
      let fbn := off / BSIZE
      (readBlock fbn din img).bind fun (x, buf, din, img) =>
        let n1 := min p.length ((fbn + 1) * BSIZE - off)
        appendLoop fuel (off + n1) (p.drop n1) din
          (img.wsect x (memmove buf (off - fbn * BSIZE) n1 p))

/-- `iappend`. -/
def iappend (inum : ℕ) (p : List ℕ) (img : Image) : Except String Image :=
  (rinode inum img).bind fun din =>
    (appendLoop p.length din.size p din img).bind fun (off, din, img) =>
      winode inum { din with size := off } img

/-- The bytes of a `struct dirent`. -/
def dirent (inum : ℕ) (name : List ℕ) : List ℕ :=
  [inum % 256, inum / 256 % 256] ++ (name.take DIRSIZ ++ List.replicate (DIRSIZ - name.length) 0)

/-- A file that is to be copied. -/
structure Input where
  name : List ℕ
  bytes : List ℕ

/-- The name in the image: a leading `'_'` is skipped. -/
def Input.target (f : Input) : List ℕ := if f.name.head? = some 95 then f.name.tail else f.name

/-- The loop that copies a file; `read` gives a full buffer except at the end. -/
def copyLoop (inum : ℕ) : ℕ → List ℕ → Image → Except String Image
  | 0, _, img => .ok img
  | fuel + 1, bytes, img =>
    if bytes.length = 0 then .ok img
    else (iappend inum (bytes.take BSIZE) img).bind (copyLoop inum fuel (bytes.drop BSIZE))

/-- A round of the loop of `main`. -/
def addFile (img : Image) (f : Input) : Except String Image :=
  if 47 ∈ f.name then .error "assert: index(argv[i], '/') == 0"
  else
    (ialloc T_FILE img).bind fun (inum, img) =>
      (iappend ROOTINO (dirent inum f.target) img).bind (copyLoop inum f.bytes.length f.bytes)

/-- "fix size of root inode dir". -/
def fixRoot (img : Image) : Except String Image :=
  (rinode ROOTINO img).bind fun din =>
    winode ROOTINO { din with size := (din.size / BSIZE + 1) * BSIZE } img

/-- The image with an empty root directory. -/
def start : Image where
  disk := Function.update (fun _ _ => 0) 1 (superBytes sb)
  freeinode := 1
  freeblock := nmeta

/-- `main`, up to `fix size of root inode dir`. -/
def addFiles (files : List Input) : Except String Image :=
  (ialloc T_DIR start).bind fun (rootino, img) =>
    if rootino ≠ ROOTINO then .error "assert: rootino == ROOTINO"
    else
      (iappend rootino (dirent rootino [46]) img).bind fun img =>
        (iappend rootino (dirent rootino [46, 46]) img).bind fun img => files.foldlM addFile img

/-- `main`. -/
def main (files : List Input) : Except String Image :=
  (addFiles files).bind fun img => (fixRoot img).bind fun img => balloc img.freeblock img

end Mkfs

end OsPlayground
