import OsAssignments.Bitmap
import OsAssignments.Builds
import OsAssignments.Machine
import OsAssignments.ObjectTable

/-!
# The object store

The operations of `objstore.c` over its global state. An operation that the
source does not return from, because it writes outside its mappings or waits for
a lock nobody releases, has no result (`none`). A buffer is a function from
offsets to bytes; what it holds from `size` on is never looked at.
-/
namespace OsAssignments

open ByteMemory Bitmap ObjectTable

/-- `MAX_INODES`, the words of the inode bitmap. -/
def maxInodes : ℕ := 31744

lemma maxInodes_eq : maxInodes = 31744 := rfl

/-- The words of the data bitmap. -/
def dataWords : ℕ := dataBlocks * blockSize / 4

lemma dataWords_eq : dataWords = 262144 := rfl

/-- The global variables of `objstore.c`, with the device of `objfs_state`. -/
structure Store where
  dev : Device
  objs : Memory
  bitMapInode : Words
  bitMapData : Words
  dBitMap : ℕ → Bool
  /-- The record found last, if any. -/
  temp : Option ℕ
  /-- Whether `lock_data` is held between two calls. -/
  lockData : Bool

namespace Store

/-- `d_bit_map[n / 46] = 1` for record `n`. -/
def markDirty (s : Store) (n : ℕ) : Store :=
  { s with dBitMap := Function.update s.dBitMap (n / 46) true }

end Store

/-- `if(bit_map_inode[i]&val) if(!strcmp(cnt->key,key))`, the test of every search by key. -/
def keyTest (objs : Memory) (key : CString) (word val : BitVec 32) (cnt : ℕ) : Bool :=
  !(word &&& val == 0#32) && keyIs objs cnt key

/-- `if((word&val)==0)`, the test of every search for a free bit. -/
def freeTest (word val : BitVec 32) (_cnt : ℕ) : Bool := word &&& val == 0#32

def searchKey (s : Store) (key : CString) : Option Found :=
  scan s.bitMapInode (keyTest s.objs key) maxInodes 0 0

def findObjectId (s : Store) (key : CString) : Store × ℤ :=
  match searchKey s key with
  | some f => ({ s with temp := some f.cnt }, objId s.objs f.cnt)
  | none => (s, -1)

/-- `strcpy` into the key of record `n` stays inside the mapping of `objs`. -/
def KeyInObjs (n : ℕ) (key : CString) : Prop :=
  keyAddr n + key.length + 1 ≤ objectBlock * blockSize

instance (n : ℕ) (key : CString) : Decidable (KeyInObjs n key) :=
  inferInstanceAs (Decidable (_ ≤ _))

def createObject (s : Store) (key : CString) : Option (Store × ℤ) :=
  match scan s.bitMapInode freeTest maxInodes 0 0 with
  | none => some (s, -1)
  | some f =>
    if KeyInObjs f.cnt key then
      let objs := setKey (setId s.objs f.cnt (f.i * 32 + f.j + 2 : ℕ)) f.cnt key
      some ({ s.markDirty (f.i * 32 + f.j) with
        objs := objs
        bitMapInode := orWord s.bitMapInode f.i f.val }, objId objs f.cnt)
    else none

def renameObject (s : Store) (key newname : CString) : Option (Store × ℤ) :=
  match searchKey s key with
  | none => some (s, -1)
  | some f =>
    if KeyInObjs f.cnt newname then
      let objs := setKey s.objs f.cnt newname
      some ({ s.markDirty (f.i * 32 + f.j) with objs := objs }, objId objs f.cnt)
    else none

section Destroy

variable (build : Build)

/-- `bit_map_data[del/32] ^= 1<<(del%32)` and, with the cache, `find_cache(del)`. -/
def releaseBlock (s : Store) (del : ℤ) : Store :=
  { s with bitMapData := toggleBit s.bitMapData del, dev := dropBlock build s.dev del }

/-- One iteration of the loop over the direct pointers. -/
def releaseDirect (n : ℕ) (s : Store) (l : ℕ) : Store :=
  if direct s.objs n l ≠ 0 then
    releaseBlock build { s with objs := setPointer s.objs n l 0 } (direct s.objs n l - writeOffset)
  else s

/-- One iteration of the loop over the entries of an indirect block. -/
def releaseEntry (tem : Block) (s : Store) (al : ℕ) : Store :=
  if entry tem al ≠ 0 then releaseBlock build s (entry tem al - writeOffset) else s

/-- One iteration of the loop over the indirect pointers: the entries first, then
the block that held them. -/
def releaseIndirect (n : ℕ) (s : Store) (l : ℕ) : Store :=
  if indirect s.objs n l ≠ 0 then
    let del := indirect s.objs n l - writeOffset
    let tem := loadBlock build s.dev del
    let s := (List.range 1024).foldl (releaseEntry build tem.2) { s with dev := tem.1 }
    releaseBlock build { s with objs := setPointer s.objs n (4 + l) 0 } del
  else s

def destroyObject (s : Store) (key : CString) : Option (Store × ℤ) :=
  match searchKey s key with
  | none => some (s, -1)
  | some f =>
    if InObjs f.cnt then
      let s := { s.markDirty (f.i * 32 + f.j) with
        bitMapInode := xorWord s.bitMapInode f.i f.val
        objs := setSize s.objs f.cnt 0 }
      let s := (List.range 4).foldl (releaseDirect build f.cnt) s
      some ((List.range 4).foldl (releaseIndirect build f.cnt) s, 0)
    else none

end Destroy

section Write

variable (build : Build)

/-- The first free bit of the data bitmap. -/
def searchFree (s : Store) : Option Found := scan s.bitMapData freeTest dataWords 0 0

/-- The page `abc`, with the bytes of the caller at its start. -/
def bufferPage (buf : Memory) (size : ℕ) : Block := fun i => if i < size then buf i else 0

/-- The direct branch of `objstore_write`, with the new data block `blk`. A block
that was there before is dropped by toggling the bit of the pointer itself. -/
def writeDirect (s : Store) (n offie size blk : ℕ) : Store :=
  if direct s.objs n offie = 0 then
    let objs := setPointer s.objs n offie (writeOffset + blk)
    { s with objs := setSize objs n (objSize objs n + size) }
  else
    { s with
      objs := setPointer s.objs n offie blk
      bitMapData := toggleBit s.bitMapData (direct s.objs n offie) }

/-- The indirect branch without an indirect block: one is taken, with the new data
block `blk` as its only entry. When no block is free its number is -1. -/
def writeNewIndirect (s : Store) (n alpha alp size blk : ℕ) : Store :=
  let free := searchFree s
  let bitMapData := match free with
    | some f => orWord s.bitMapData f.i f.val
    | none => s.bitMapData
  let ind : ℤ := match free with
    | some f => (f.i * 32 + f.j : ℕ)
    | none => -1
  let objs := setPointer s.objs n (4 + alpha) (writeOffset + ind)
  { s with
    bitMapData := bitMapData
    dev := storeBlock build s.dev ind (setEntry (fun _ => 0) alp (writeOffset + blk))
    objs := setSize objs n (objSize objs n + size) }

/-- The indirect branch with an indirect block. An entry that was there before is
dropped by toggling the bit of the entry itself. -/
def writeOldIndirect (s : Store) (n alpha alp size blk : ℕ) : Store :=
  let ind := indirect s.objs n alpha - writeOffset
  let indirectArray := loadBlock build s.dev ind
  let s := { s with
    dev := storeBlock build indirectArray.1 ind
      (setEntry indirectArray.2 alp (writeOffset + blk)) }
  if entry indirectArray.2 alp = 0 then
    { s with objs := setSize s.objs n (objSize s.objs n + size) }
  else { s with bitMapData := toggleBit s.bitMapData (entry indirectArray.2 alp) }

def writeIndirect (s : Store) (n offie size blk : ℕ) : Store :=
  let alpha := (offie - 4) / 1024
  let alp := (offie - 4) % 1024
  if indirect s.objs n alpha = 0 then writeNewIndirect build s n alpha alp size blk
  else writeOldIndirect build s n alpha alp size blk

/-- Where the source stays inside its mappings and its lock until it has a data block:
the page takes the bytes, the record exists, and `lock_data` is free. -/
def StartInBounds (s : Store) (n size : ℕ) : Prop := size ≤ 4096 ∧ InObjs n ∧ s.lockData = false

instance (s : Store) (n size : ℕ) : Decidable (StartInBounds s n size) :=
  inferInstanceAs (Decidable (_ ∧ _))

/-- The pointer of the record that a write to logical block `k` may set. -/
def pointerOf (k : ℕ) : ℕ := if k < 4 then k else 4 + (k - 4) / 1024

/-- The pointer for logical block `k` lies inside the mapping of `objs`. -/
def PointerInObjs (n k : ℕ) : Prop := 96 * n + 64 + 4 * pointerOf k + 4 ≤ objectBlock * blockSize

instance (n k : ℕ) : Decidable (PointerInObjs n k) := inferInstanceAs (Decidable (_ ≤ _))

/-- `objstore_write`, at any index whose pointer lies inside the mapping. Without a free
block `lock_data` stays held. -/
def objstoreWriteAt (s : Store) (objid : ℤ) (buf : Memory) (size offset : ℕ) :
    Option (Store × ℤ) :=
  if objid < 2 then some (s, -1)
  else
    let n := (objid - 2).toNat
    let offie := offset / blockSize
    if StartInBounds s n size then
      let s := s.markDirty n
      match searchFree s with
      | none => some ({ s with lockData := true }, -1)
      | some f =>
        let blk := f.i * 32 + f.j
        let s := { s with
          bitMapData := orWord s.bitMapData f.i f.val
          dev := storeBlock build s.dev blk (bufferPage buf size) }
        if PointerInObjs n offie then
          some (if offie < 4 then writeDirect s n offie size blk
            else writeIndirect build s n offie size blk, size)
        else none
    else none

/-- The same for one of the 4100 blocks that the pointers of a record reach. -/
def WriteInBounds (s : Store) (n offie size : ℕ) : Prop :=
  size ≤ 4096 ∧ InObjs n ∧ offie < 4100 ∧ s.lockData = false

instance (s : Store) (n offie size : ℕ) : Decidable (WriteInBounds s n offie size) :=
  inferInstanceAs (Decidable (_ ∧ _))

/-- `objstore_write`, at the blocks that the pointers of a record reach. -/
def objstoreWrite (s : Store) (objid : ℤ) (buf : Memory) (size offset : ℕ) :
    Option (Store × ℤ) :=
  if objid < 2 ∨ offset / blockSize < 4100 then objstoreWriteAt build s objid buf size offset
  else none

end Write

section Read

variable (build : Build)

/-- The local variables of `objstore_read`. The pages of `read_array` are numbered
by `iterator`. -/
structure ReadState where
  dev : Device
  offie : ℕ
  totalBlocks : ℕ
  iterator : ℕ
  readArray : ℕ → Block

/-- The body of both loops over pointers: skip one, or read its block. -/
def readPointer (ptr : ℤ) (r : ReadState) : ReadState :=
  if 0 < r.offie then { r with offie := r.offie - 1 }
  else
    let l := loadBlock build r.dev (ptr - writeOffset)
    { r with
      dev := l.1
      totalBlocks := r.totalBlocks - 1
      iterator := r.iterator + 1
      readArray := Function.update r.readArray r.iterator l.2 }

/-- `for(;(i<..)&&(total_blocks>0);i++)` over `k` more pointers from the `i`-th on. -/
def readPointers (ptr : ℕ → ℤ) : ℕ → ℕ → ReadState → ReadState
  | 0, _, r => r
  | k + 1, i, r =>
    if 0 < r.totalBlocks then readPointers ptr k (i + 1) (readPointer build (ptr i) r) else r

/-- The loop over `k` more indirect pointers from the `j`-th on. -/
def readIndirects (ind : ℕ → ℤ) : ℕ → ℕ → ReadState → ReadState
  | 0, _, r => r
  | k + 1, j, r =>
    if 0 < r.totalBlocks then
      let l := loadBlock build r.dev (ind j - writeOffset)
      readIndirects ind k (j + 1) (readPointers build (entry l.2) 1024 0 { r with dev := l.1 })
    else r

/-- The number of pages that take `size` bytes. -/
def totalBlocks (size : ℕ) : ℕ :=
  if 0 < size % blockSize then size / blockSize + 1 else size / blockSize

/-- The first `size` bytes of a run of pages. -/
def pageBytes (pages : ℕ → Block) (size : ℕ) : List UInt8 :=
  (List.range size).map fun i => pages (i / blockSize) (Fin.ofNat blockSize i)

/-- The bytes come with the return value. -/
def objstoreRead (s : Store) (objid : ℤ) (size offset : ℕ) : Option (Store × ℤ × List UInt8) :=
  if objid < 2 then some (s, -1, [])
  else
    let n := (objid - 2).toNat
    if InObjs n then
      let r := readPointers build (direct s.objs n) 4 0
        ⟨s.dev, offset / blockSize, totalBlocks size, 0, fun _ _ => 0⟩
      let r := readIndirects build (indirect s.objs n) 4 0 r
      some ({ s with dev := r.dev }, size, pageBytes r.readArray size)
    else none

end Read

/-- `st_size` and `st_blocks` for an inode number; `none` is the return value -1.
Before the first search `temp` is an empty record. -/
def fillupSizeDetails (s : Store) (ino : ℕ) : Option (ℤ × ℤ) :=
  let id : ℤ := match s.temp with
    | some n => objId s.objs n
    | none => 0
  let size : ℤ := match s.temp with
    | some n => objSize s.objs n
    | none => 0
  if ino < 2 ∨ id % 2 ^ 64 ≠ ino then none
  else some (size, if size / 2 ^ 9 * 2 ^ 9 ≠ size then size / 2 ^ 9 + 1 else size / 2 ^ 9)

section Mount

/-- The bitmap word at place `e` of a block. -/
def blockWord (b : Block) (e : ℕ) : BitVec 32 := BitVec.ofNat 32 (loadLE (bytes b) (4 * e) 4)

/-- Block `i` of a bitmap. -/
def wordsBlock (w : Words) (i : ℕ) : Block :=
  fun x => byteAt (w ((1024 * i + x / 4 : ℕ) : ℤ)).toNat (x % 4)

/-- One iteration of the loop that fills `objs` through the page `do_it`. -/
def initTable (st : Disk × Block × Memory) (i : ℕ) : Disk × Block × Memory :=
  let r := readBlock st.1 i st.2.1
  (r.1, r.2.1, storeBytes st.2.2 (i * 4048) 4048 (bytes r.2.1))

/-- One iteration of a loop of `init_free`, for the bitmap whose blocks start at `start`. -/
def initWords (start : ℕ) (st : Disk × Words) (i : ℕ) : Disk × Words :=
  let r := readBlock st.1 (i + start : ℕ) (wordsBlock st.2 i)
  (r.1, fun w => if w / 1024 = i then blockWord r.2.1 (w % 1024).toNat else st.2 w)

/-- The loop of `objstore_init` over the table blocks. -/
def initObjs (d : Disk) : Disk × Block × Memory :=
  (List.range objectBlock).foldl initTable (d, fun _ => 0, fun _ => 0)

/-- The inode bitmap and the data bitmap. -/
def initFree (d : Disk) : Disk × Words × Words :=
  let u := (List.range inodeBitBlocks).foldl (initWords objectBlock) (d, fun _ => 0#32)
  let v := (List.range dataBlocks).foldl (initWords (objectBlock + 31)) (u.1, fun _ => 0#32)
  (v.1, u.2, v.2)

/-- The globals of a mount, with the table and the bitmaps read from the disk. -/
def mountWith (d : Device) (t : Disk × Block × Memory) (f : Disk × Words × Words) : Store where
  dev := { BlockCache.initCache d with disk := f.1 }
  objs := t.2.2
  bitMapInode := f.2.1
  bitMapData := f.2.2
  dBitMap := fun _ => false
  temp := none
  lockData := false

def objstoreInit (d : Device) : Store :=
  mountWith d (initObjs d.disk) (initFree (initObjs d.disk).1)

/-- The page `do_it` for block `i` of the table. -/
def tablePage (objs : Memory) (i : ℕ) : Block :=
  fun k => if k < 4048 then objs (i * 4048 + k) else 0

/-- One iteration of the loop that writes the marked table blocks back. -/
def destroyTable (s : Store) (d : Disk) (i : ℕ) : Disk :=
  if s.dBitMap i then (writeBlock d i (tablePage s.objs i)).1 else d

def destroyWords (start : ℕ) (w : Words) (d : Disk) (i : ℕ) : Disk :=
  (writeBlock d (i + start : ℕ) (wordsBlock w i)).1

/-- The loop of `objstore_destroy` over the table blocks. -/
def writeObjs (s : Store) (d : Disk) : Disk := (List.range objectBlock).foldl (destroyTable s) d

/-- The loops of `objstore_destroy` over the bitmap blocks. -/
def writeFree (s : Store) (d : Disk) : Disk :=
  (List.range dataBlocks).foldl (destroyWords (objectBlock + 31) s.bitMapData)
    ((List.range inodeBitBlocks).foldl (destroyWords objectBlock s.bitMapInode) d)

/-- Unmount; the device is what remains. -/
def objstoreDestroy (s : Store) : Device :=
  let dev := BlockCache.flushCache { s.dev with disk := writeObjs s s.dev.disk }
  { dev with disk := writeFree s dev.disk }

end Mount

/-- The calls a file system makes. -/
inductive Op where
  | create (key : CString)
  | rename (key newname : CString)
  | destroy (key : CString)
  | write (objid : ℤ) (buf : Memory) (size offset : ℕ)
  | read (objid : ℤ) (size offset : ℕ)
  | find (key : CString)
  | stat (ino : ℕ)

/-- What a call hands back: a return value, with the bytes of a read or the size
and block count of a successful `fillup_size_details`. -/
structure Reply where
  ret : ℤ
  bytes : List UInt8 := []
  details : Option (ℤ × ℤ) := none
  deriving DecidableEq

def exec (build : Build) (s : Store) : Op → Option (Store × Reply)
  | .create key => (createObject s key).map fun r => (r.1, { ret := r.2 })
  | .rename key newname => (renameObject s key newname).map fun r => (r.1, { ret := r.2 })
  | .destroy key => (destroyObject build s key).map fun r => (r.1, { ret := r.2 })
  | .write objid buf size offset =>
    (objstoreWrite build s objid buf size offset).map fun r => (r.1, { ret := r.2 })
  | .read objid size offset =>
    (objstoreRead build s objid size offset).map fun r => (r.1, { ret := r.2.1, bytes := r.2.2 })
  | .find key => some ((findObjectId s key).1, { ret := (findObjectId s key).2 })
  | .stat ino =>
    match fillupSizeDetails s ino with
    | some r => some (s, { ret := 0, details := some r })
    | none => some (s, { ret := -1 })

/-- A run of calls, with the replies in order. -/
def execAll (build : Build) : Store → List Op → Option (Store × List Reply) :=
  Machine.run (exec build)

end OsAssignments
