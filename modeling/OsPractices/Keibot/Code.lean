import OsPractices.Keibot.Paths
import OsPractices.Library.ByteMemory
import OsPractices.Library.Runs

/-!
# A file system of paths

`keibot.c`: the file system is a list of entries, each with its full path. The
address of an entry is its `id`, which no later entry gets again. Memory never
runs out; `realloc` refuses only what is too large for an object. The times of
an entry are left out.
-/

set_option autoImplicit false

namespace OsPractices.Keibot

open Library

abbrev Mode := BitVec 32

def modeDir : Mode := 0o040000
def modeReg : Mode := 0o100000

/-- `S_IFMT`, the bits of a mode that tell the kind of a file. -/
def modeKind : Mode := 0o170000

def ENOENT : Int := 2
def ENOMEM : Int := 12
def EEXIST : Int := 17
def EISDIR : Int := 21
def ENAMETOOLONG : Int := 36
def ENOTEMPTY : Int := 39
def EISNAM : Int := 120

def renameNoreplace : Nat := 1
def renameExchange : Nat := 2

def blockSize : Nat := 512

/-- `PTRDIFF_MAX`, the size above which `realloc` gives no block. -/
def ptrdiffMax : Nat := 2 ^ 63 - 1

/-- A block of memory with the number of bytes last allocated for it. -/
structure Content where
  allocated : Nat
  bytes : Memory

/-- The fields of `struct stat` that are set. -/
structure Stat where
  mode : Mode
  rdev : Nat
  nlink : Nat
  size : Nat
  blocks : Nat
  deriving DecidableEq, Repr

structure Entry where
  id : Nat
  path : Path
  content : Option Content
  status : Stat

namespace Entry

def isDir (entry : Entry) : Bool := entry.status.mode &&& ~~~0o111 == modeDir

def isReg (entry : Entry) : Bool := entry.status.mode &&& ~~~0o111 == modeReg

end Entry

/-- `cli_options`. -/
structure CliOptions where
  chatbotMode : Bool
  bot1 : Path
  bot2 : Path
  deriving DecidableEq, Repr

/-- `bot1Path` and `bot2Path` share their memory with the path of an entry, and
are `none` after it was freed. -/
structure FileSystem where
  options : CliOptions
  entries : List Entry
  nextId : Nat
  bot1Path : Option Path
  bot2Path : Option Path
  emoji : List (List UInt8)

/-- The requests. `fh` is the handle that an open gave, `buf` the bytes to
write, `behind` what lies behind them in memory; `junk` is what the new blocks
hold before they are written. -/
inductive Call where
  | mknod (path : Path) (mode : Mode) (rdev : Nat)
  | mkdir (path : Path) (mode : Mode)
  | unlink (path : Path)
  | rmdir (path : Path)
  | rename (src dest : Path) (flags : Nat)
  | openFile (path : Path)
  | opendir (path : Path)
  | write (path : Path) (fh : Option Nat) (buf behind : List UInt8) (offset : Nat)
      (junk : Nat → Memory)
  | read (fh : Option Nat) (bytes offset : Nat)
  | getattr (path : Path)

/-- What a request returns, and what it stores for the caller. -/
inductive Reply where
  | code (ret : Int)
  | opened (fh : Nat)
  | data (ret : Int) (buf : List UInt8)
  | attr (status : Stat)
  deriving DecidableEq, Repr

namespace Content

/-- `realloc`; a null pointer has no bytes to keep. -/
def realloc (content : Option Content) (size : Nat) (junk : Memory) : Content :=
  match content with
  | none => ⟨size, junk⟩
  | some old =>
      ⟨size, fun index => if index < min old.allocated size then old.bytes index else junk index⟩

def memcpy (content : Content) (offset : Nat) (buf : List UInt8) : Content :=
  { content with
    bytes := fun index =>
      if offset ≤ index then (buf[index - offset]?).getD (content.bytes index)
      else content.bytes index }

def store (content : Content) (index : Nat) (byte : UInt8) : Content :=
  { content with bytes := Function.update content.bytes index byte }

/-- The one byte of `strdup("")`. -/
def empty : Content := ⟨1, fun _ => 0⟩

end Content

/-- `write_file`; `none` is a store through a null pointer. -/
def writeFile (entry : Entry) (buf : List UInt8) (offset : Nat) (junk : Memory) :
    Option (Entry × Int) :=
  if entry.isDir then some (entry, -EISDIR)
  else
    let finish := (offset + buf.length) % 2 ^ 64
    if entry.status.size < finish ∧ ptrdiffMax < finish then some (entry, -ENOMEM)
    else
      let content :=
        if entry.status.size < finish then some (Content.realloc entry.content finish junk)
        else entry.content
      content.map fun content =>
        ({ entry with
            content := some ((content.memcpy offset buf).store finish 0)
            status := { entry.status with
              size := finish
              blocks := (finish + (blockSize - 1)) % 2 ^ 64 / blockSize } }, 0)

namespace FileSystem

def findEntry (fs : FileSystem) (path : Path) : Option Entry :=
  fs.entries.find? fun entry => entry.path = path

/-- The entry that a handle points to. -/
def deref (fs : FileSystem) (fh : Nat) : Option Entry :=
  fs.entries.find? fun entry => entry.id = fh

def newFile (fs : FileSystem) (path : Path) (content : Option Content) (mode : Mode)
    (rdev nlink : Nat) : FileSystem :=
  { fs with
    entries := fs.entries ++ [⟨fs.nextId, path, content, ⟨mode, rdev, nlink, 0, 0⟩⟩]
    nextId := fs.nextId + 1 }

/-- `free` of the path of an entry: the first two entries behind the root are
those of the bots. -/
def freePath (fs : FileSystem) (id : Nat) : FileSystem :=
  { fs with
    bot1Path := if id = 1 then none else fs.bot1Path
    bot2Path := if id = 2 then none else fs.bot2Path }

def delFile (fs : FileSystem) (entry : Entry) : FileSystem :=
  { fs.freePath entry.id with
    entries := fs.entries.filter fun other => other.id ≠ entry.id }

/-- Change the entry at an address. -/
def update (fs : FileSystem) (id : Nat) (change : Entry → Entry) : FileSystem :=
  { fs with
    entries := fs.entries.map fun entry => if entry.id = id then change entry else entry }

/-- `swtich_bot`; `none` reads a freed path. -/
def swtichBot (fs : FileSystem) (path : Path) : Option (Option Path) :=
  fs.bot1Path.bind fun bot1Path =>
    if isParentPath bot1Path path false then
      some (some (replaceFirstAfter rootPath path fs.options.bot1 fs.options.bot2))
    else
      fs.bot2Path.map fun bot2Path =>
        if isParentPath bot2Path path false then
          some (replaceFirstAfter rootPath path fs.options.bot2 fs.options.bot1)
        else none

/-- The counterpart of a path, in chatbot mode. -/
def counterpart (fs : FileSystem) (path : Path) : Option (Option Path) :=
  if fs.options.chatbotMode then fs.swtichBot path else some none

def createFile (fs : FileSystem) (path : Path) (mode : Mode) (rdev nlink : Nat) :
    FileSystem × Int :=
  if maxFileNameLen < path.length then (fs, -ENAMETOOLONG)
  else
    match fs.findEntry path with
    | some _ => (fs, -EEXIST)
    | none => (fs.newFile path (some .empty) mode rdev nlink, 0)

/-- The common body of `keibot_mknod` and `keibot_mkdir`. -/
def createBoth (fs : FileSystem) (path : Path) (mode : Mode) (rdev nlink : Nat) :
    Option (FileSystem × Reply) :=
  let (fs, ret) := fs.createFile path mode rdev nlink
  if ret < 0 then some (fs, .code ret)
  else
    (fs.counterpart path).map fun npath =>
      match npath with
      | none => (fs, .code ret)
      | some npath =>
          let (fs, ret) := fs.createFile npath mode rdev nlink
          (fs, .code ret)

def mknod (fs : FileSystem) (path : Path) (mode : Mode) (rdev : Nat) :
    Option (FileSystem × Reply) :=
  fs.createBoth path (modeReg ||| mode) rdev 1

def mkdir (fs : FileSystem) (path : Path) (mode : Mode) : Option (FileSystem × Reply) :=
  fs.createBoth path (modeDir ||| mode) 0 2

def unlink (fs : FileSystem) (path : Path) : FileSystem × Reply :=
  match fs.findEntry path with
  | none => (fs, .code (-ENOENT))
  | some entry => if entry.isDir then (fs, .code (-EISDIR)) else (fs.delFile entry, .code 0)

def rmdir (fs : FileSystem) (path : Path) : FileSystem × Reply :=
  match fs.findEntry path with
  | none => (fs, .code (-ENOENT))
  | some entry =>
      if entry.isReg then (fs, .code (-EISNAM))
      else if 0 < fs.entries.countP fun other => isParentPath path other.path false then
        (fs, .code (-ENOTEMPTY))
      else (fs.delFile entry, .code 0)

/-- `none` is the failed assertion. -/
def rename (fs : FileSystem) (src dest : Path) (flags : Nat) : Option (FileSystem × Reply) :=
  if src.take maxFileNameLen = dest.take maxFileNameLen then some (fs, .code 0)
  else if flags = renameExchange then none
  else
    match fs.findEntry src with
    | none => some (fs, .code (-ENOENT))
    | some srcEntry =>
        if flags = renameNoreplace ∧ (fs.findEntry dest).isSome then some (fs, .code (-EEXIST))
        else
          let fs := ((fs.findEntry dest).map fs.delFile).getD fs
          let fs := (fs.freePath srcEntry.id).update srcEntry.id fun entry =>
            { entry with path := dest }
          if srcEntry.isDir && fs.entries.any fun entry => isParentPath src entry.path false then
            none
          else some (fs, .code 0)

def openFile (fs : FileSystem) (path : Path) : FileSystem × Reply :=
  let (fs, entry) :=
    match fs.findEntry path with
    | some entry => (fs, entry)
    | none =>
        (fs.newFile path (some .empty) (modeReg ||| 0o444) 0 1,
          ⟨fs.nextId, path, some .empty, ⟨modeReg ||| 0o444, 0, 1, 0, 0⟩⟩)
  if entry.isDir then (fs, .code (-EISDIR)) else (fs, .opened entry.id)

def opendir (fs : FileSystem) (path : Path) : FileSystem × Reply :=
  let (fs, entry) :=
    match fs.findEntry path with
    | some entry => (fs, entry)
    | none =>
        (fs.newFile path none (modeDir ||| 0o755) 0 2,
          ⟨fs.nextId, path, none, ⟨modeDir ||| 0o755, 0, 2, 0, 0⟩⟩)
  if entry.isReg then (fs, .code (-EISNAM)) else (fs, .opened entry.id)

/-- The bytes and the offset that a write stores: those of an emoji in chatbot
mode. `none` is an emoji that the table does not have. -/
def emojiOr (fs : FileSystem) (buf behind : List UInt8) (offset : Nat) :
    Option (List UInt8 × Nat) :=
  let id := getEmojiId (buf ++ behind)
  if fs.options.chatbotMode && 0 ≤ id then fs.emoji[id.toNat]?.map fun text => (text, 0)
  else some (buf, offset)

/-- One `write_file` of `keibot_write`. -/
def writeEntry (fs : FileSystem) (entry : Entry) (buf behind : List UInt8) (offset : Nat)
    (junk : Memory) : Option (FileSystem × Int) :=
  (fs.emojiOr buf behind offset).bind fun (text, offset) =>
    (writeFile entry text offset junk).map fun (entry, ret) =>
      (fs.update entry.id fun _ => entry, ret)

def write (fs : FileSystem) (path : Path) (fh : Option Nat) (buf behind : List UInt8)
    (offset : Nat) (junk : Nat → Memory) : Option (FileSystem × Reply) :=
  match fh with
  | none => some (fs, .code (-ENOENT))
  | some fh =>
      (fs.deref fh).bind fun entry =>
        (fs.writeEntry entry buf behind offset (junk 0)).bind fun (fs, ret) =>
          if ret < 0 then some (fs, .code ret)
          else
            (fs.counterpart path).bind fun npath =>
              match npath.bind fs.findEntry with
              | none => some (fs, .code ((buf.length : Int).bmod (2 ^ 32)))
              | some entry =>
                  (fs.writeEntry entry buf behind offset (junk 1)).map fun (fs, _) =>
                    (fs, .code ((buf.length : Int).bmod (2 ^ 32)))

def read (fs : FileSystem) (fh : Option Nat) (bytes offset : Nat) : Option Reply :=
  match fh with
  | none => some (.code (-ENOENT))
  | some fh =>
      (fs.deref fh).bind fun entry =>
        if entry.isDir then some (.code (-EISDIR))
        else
          let rbytes := min (max ((entry.status.size : Int) - offset) 0).toNat bytes
          let ret := (rbytes : Int).bmod (2 ^ 32)
          match entry.content with
          | none => if rbytes = 0 then some (.data ret []) else none
          | some content =>
              some (.data ret ((List.range rbytes).map fun index => content.bytes (offset + index)))

def getattr (fs : FileSystem) (path : Path) : Reply :=
  match fs.findEntry path with
  | none => .code (-ENOENT)
  | some entry => .attr entry.status

/-- `keibot_init`. -/
def init (options : CliOptions) : FileSystem :=
  let fs : FileSystem := ⟨options, [], 0, none, none, []⟩
  let fs := fs.newFile rootPath none (modeDir ||| 0o755) 0 2
  if options.chatbotMode then
    let bot1Path := concatenate rootPath options.bot1
    let bot2Path := concatenate rootPath options.bot2
    let fs := { fs with bot1Path := some bot1Path, bot2Path := some bot2Path }
    let fs := fs.newFile bot1Path none (modeDir ||| 0o755) 0 2
    let fs := fs.newFile bot2Path none (modeDir ||| 0o755) 0 2
    { fs with
      emoji := [['(', ' ', 'ﾟ', '▽', 'ﾟ', ')', '/', '\n'], ['(', '°', '∀', '°', ')', 'b', '\n'],
        ['(', '¬', '‿', '¬', ')', '\n'], ['(', '▼', '-', '▼', '*', ')', '\n'],
        ['(', '´', 'Д', '｀', ')', '\n']].map (List.flatMap String.utf8EncodeChar) }
  else fs

/-- One request; `none` where the process aborts or its behaviour is undefined. -/
def step (fs : FileSystem) : Call → Option (FileSystem × List Reply)
  | .mknod path mode rdev => (fs.mknod path mode rdev).map fun (fs, reply) => (fs, [reply])
  | .mkdir path mode => (fs.mkdir path mode).map fun (fs, reply) => (fs, [reply])
  | .unlink path => some ((fs.unlink path).1, [(fs.unlink path).2])
  | .rmdir path => some ((fs.rmdir path).1, [(fs.rmdir path).2])
  | .rename src dest flags => (fs.rename src dest flags).map fun (fs, reply) => (fs, [reply])
  | .openFile path => some ((fs.openFile path).1, [(fs.openFile path).2])
  | .opendir path => some ((fs.opendir path).1, [(fs.opendir path).2])
  | .write path fh buf behind offset junk =>
      (fs.write path fh buf behind offset junk).map fun (fs, reply) => (fs, [reply])
  | .read fh bytes offset => (fs.read fh bytes offset).map fun reply => (fs, [reply])
  | .getattr path => some (fs, [fs.getattr path])

end FileSystem

end OsPractices.Keibot
