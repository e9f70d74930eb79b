/-
Donkeyji.CgiHandler.UploadSession — saving uploaded files
(src/cgihandler/upload_session.py).

A path lists its names from the inside out; `.`, `..` and links do not occur.
The system may refuse any `mkdir`, the opening, the writing and the closing of
a file; what is in a file after a refused write or close is part of the input.
The removals of `__del__` fail only where the system has to refuse them. The
names are whatever the paths are made of, and what `revise_upfile_name` makes
of the name in the upload is part of the input.
-/
import Donkeyji.Lib.FileTree

namespace Donkeyji.CgiHandler

variable {ν : Type}

/-- The bytes of a file. -/
abbrev Body := List UInt8

/-- What the look-up of the name in the upload gives: the revised name, an exception that
`safe_save` catches there, or another one. -/
inductive NameLookup (ν : Type) where
  | found (name : List ν)
  | caught
  | uncaught
deriving DecidableEq, Repr

/-- The uploaded file; `none` is an upload without the attribute `body`. -/
structure UploadFile (ν : Type) where
  filename : NameLookup ν
  body : Option Body
deriving DecidableEq, Repr

/-- A call of `safe_save`, with what the system refuses and what a refused file holds. -/
structure SaveCall (ν : Type) where
  uploadFile : UploadFile ν
  savePath : List ν
  saveFilename : Option (List ν)
  failMkdir : List ν → Bool
  failOpen : Bool
  failWrite : Bool
  failClose : Bool
  left : Body

/-- How a call ends: it returns, it raises a `SessionUploadError`, or another exception leaves
it. -/
inductive SaveEnd where
  | returned (result : Bool)
  | sessionUploadError
  | raised
deriving DecidableEq, Repr

/-- `UpLoadSessionBase`, and the files of the system. -/
structure UpLoadSession (ν : Type) where
  files : FileTree ν Body
  sessionResult : Bool
  pathList : List (List ν)
  savedFilelist : List (List ν)
  throw : Bool

/-- `__init__`. -/
def UpLoadSession.init (files : FileTree ν Body) (throw : Bool) : UpLoadSession ν :=
  ⟨files, true, [], [], throw⟩

/-- `failed_session`. -/
def failedSession (s : UpLoadSession ν) : SaveEnd × UpLoadSession ν :=
  let s := { s with sessionResult := false }
  if s.throw then (.sessionUploadError, s) else (.returned false, s)

variable [DecidableEq ν]

/-- `os.mkdir`; whether it made the directory. -/
def osMkdir (fail : List ν → Bool) (files : FileTree ν Body) (path : List ν) :
    FileTree ν Body × Bool :=
  match if fail path then none else files.mkdir path with
  | some files => (files, true)
  | none => (files, false)

/-- `os.makedirs`: the missing directories from the outside in, until one cannot be made. -/
def makedirs (fail : List ν → Bool) (files : FileTree ν Body) : List ν → FileTree ν Body × Bool
  | [] => (files, false)
  | n :: head =>
    let r := if files.get head ≠ none then (files, true) else makedirs fail files head
    if r.2 then osMkdir fail r.1 (n :: head) else r

/-- The first `try` of `safe_save`; whether it goes on. -/
def ensureDir (s : UpLoadSession ν) (c : SaveCall ν) : Bool × UpLoadSession ν :=
  if s.files.get c.savePath = some .dir then
    (true, s)
  else
    let r := makedirs c.failMkdir s.files c.savePath
    if r.2 then
      (true, { s with files := r.1, pathList := s.pathList ++ [c.savePath] })
    else
      (false, { s with files := r.1 })

/-- The second `try`: the name under which the file is saved. -/
def SaveCall.name (c : SaveCall ν) : NameLookup ν :=
  match c.saveFilename with
  | none => c.uploadFile.filename
  | some [] => c.uploadFile.filename
  | some name => .found name

/-- What is in an opened file when the call is over. -/
def SaveCall.content (c : SaveCall ν) : Body :=
  match c.uploadFile.body with
  | none => []
  | some body => if c.failWrite || c.failClose then c.left else body

/-- The third `try`: open, write and close the file. -/
def saveFile (s : UpLoadSession ν) (c : SaveCall ν) (path : List ν) :
    SaveEnd × UpLoadSession ν :=
  match if c.failOpen then none else s.files.write c.content path with
  | none => failedSession s
  | some files =>
    let s := { s with files := files }
    if c.uploadFile.body = none then
      (.raised, s)
    else if c.failWrite then
      failedSession s
    else
      let s := { s with savedFilelist := s.savedFilelist ++ [path] }
      if c.failClose then failedSession s else (.returned true, s)

/-- `safe_save` from the second `try` on. -/
def saveUnder (s : UpLoadSession ν) (c : SaveCall ν) : SaveEnd × UpLoadSession ν :=
  match c.name with
  | .found name => saveFile s c (name ++ c.savePath)
  | .caught => failedSession s
  | .uncaught => (.raised, s)

/-- `safe_save`. -/
def safeSave (s : UpLoadSession ν) (c : SaveCall ν) : SaveEnd × UpLoadSession ν :=
  let r := ensureDir s c
  if r.1 then saveUnder r.2 c else failedSession r.2

/-- The loops of `__del__`; the first `OSError` ends both. -/
def rollback (s : UpLoadSession ν) : FileTree ν Body :=
  let r := s.files.removeAll s.savedFilelist
  if r.2 then (r.1.rmdirAll s.pathList).1 else r.1

/-- `__del__`: the files afterwards. -/
def UpLoadSession.del (s : UpLoadSession ν) : FileTree ν Body :=
  if s.sessionResult then s.files else rollback s

end Donkeyji.CgiHandler
