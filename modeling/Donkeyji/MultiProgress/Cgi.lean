/-
Donkeyji.MultiProgress.Cgi — requests and their CGI processes in
`multi_progress/conn.c`.

A worker has its pool of `conn` objects and the bufferevents of the pipes of
its CGI processes, each with the object it was made for. Connections are
numbered as they are accepted: `client` says which one an object stands for,
and every CGI process is marked with the one it was forked for. What the
system calls and `bufferevent_new` return is given from outside. `chunk_new`
has no return statement; it is taken to return the chunk.
-/
import Donkeyji.MultiProgress.Conn
import Donkeyji.ServerMaps.Buffer

namespace Donkeyji.MultiProgress

open Memory

/-- `buffer_append`: the code of `server_maps`, where a buffer has an offset too. -/
def bufferAppend (junk : Nat → UInt8) (b : Buffer) (buf : List UInt8) : Option (Int × Buffer) := do
  let (ret, b) ← ServerMaps.bufferAppend junk ⟨b.ptr, b.size, b.used, 0⟩ buf
  return (ret, ⟨b.ptr, b.size, b.used⟩)

/-- `buffer_append`, where `mem` is what `malloc` or `realloc` gives if it is called. -/
def bufferAppendWith (mem : Option (Nat → UInt8)) (b : Buffer) (buf : List UInt8) :
    Option (Int × Buffer) := do
  let (ret, b) ← ServerMaps.bufferAppendWith mem ⟨b.ptr, b.size, b.used, 0⟩ buf
  return (ret, ⟨b.ptr, b.size, b.used⟩)

/-- `chunkqueue_get_unused_chunk`. -/
def chunkqueueGetUnusedChunk (cq : ChunkQueue) : Chunk × ChunkQueue :=
  match cq.unused with
  | [] => (chunkNew, cq)
  | c :: unused => (c, { cq with unused, unusedChunks := cq.unusedChunks - 1 })

/-- `chunkqueue_get_append_chunk` and a `buffer_append` to that chunk, whose result is not looked
at. -/
def chunkqueueAppend (junk : Nat → UInt8) (cq : ChunkQueue) (buf : List UInt8) :
    Option ChunkQueue := do
  let (ck, cq) := chunkqueueGetUnusedChunk cq
  let (_, mem) ← bufferAppend junk ck.mem buf
  return { cq with chunks := cq.chunks ++ [{ ck with mem }] }

/-- The bufferevent of a CGI process, the object it has as its argument, and the connection that
the process was forked for. -/
structure Cgi where
  bev : Bev
  arg : ConnPtr
  conn : Nat
deriving DecidableEq, Repr

/-- A worker process. -/
structure Worker where
  conns : Conns
  client : ConnPtr → Option Nat
  accepted : Nat
  cgis : List Cgi

/-- Before the first connection. -/
def workerStart : Worker := ⟨poolStart, fun _ => none, 0, []⟩

/-- What comes of `pipe`, `fork` and, in the parent, `bufferevent_new`. -/
inductive ForkAnswer where
  | failed
  | forked (bev : Option Bev)
deriving DecidableEq, Repr

/-- The bufferevent of a new CGI process. -/
def ForkAnswer.bev : ForkAnswer → Option Bev
  | .failed => none
  | .forked bev => bev

/-- What happens to a worker. `fuel` and `ok` are for `_conn_write_response`. -/
inductive WorkerAct where
  | accept (sock : Int) (bev : Option Bev)
  | request (p : ConnPtr) (buf : List UInt8) (answer : ForkAnswer) (fuel : Nat) (ok : Nat → Bool)
  | cgiOutput (bev : Bev) (buf : List UInt8)
  | cgiExit (bev : Bev)
  | disconnect (p : ConnPtr)

namespace Worker

/-- The CGI process of a bufferevent. -/
def cgi (w : Worker) (bev : Bev) : Option Cgi := w.cgis.find? (·.bev = bev)

/-- `conn_mgr_add_conn` for a new socket; the object is the last one in use. -/
def accept (w : Worker) (sock : Int) (bev : Option Bev) : Option Worker := do
  let conns ← connMgrAddConn w.conns sock bev
  let p ← conns.cm.ptr[conns.cm.used - 1]?
  return { w with
    conns
    client := Function.update w.client p (some w.accepted)
    accepted := w.accepted + 1 }

/-- `_conn_parse_request`. `bufferevent_enable` reads through what `bufferevent_new` returned. -/
def connParseRequest (w : Worker) (p : ConnPtr) : ForkAnswer → Option Worker
  | .failed => some w
  | .forked none => none
  | .forked (some bev) => do
    let k ← w.client p
    return { w with cgis := ⟨bev, p, k⟩ :: w.cgis }

/-- `_conn_handle_read`, with `_conn_process_read`. -/
def connHandleRead (junk : Nat → UInt8) (w : Worker) (p : ConnPtr) (buf : List UInt8)
    (answer : ForkAnswer) (fuel : Nat) (ok : Nat → Bool) : Option Worker :=
  if buf = [] then some w
  else do
    let c ← w.conns.heap p
    let readQ ← chunkqueueAppend junk c.readQ buf
    let w ← w.connParseRequest p answer
    let (writeQ, _) ← connWriteResponse ok fuel c.writeQ
    let c := { c with readQ := chunkqueueRemoveFinishedChunks readQ, writeQ }
    return { w with conns := w.conns.set p c }

/-- `_cgi_handle_read`. -/
def cgiHandleRead (junk : Nat → UInt8) (w : Worker) (bev : Bev) (buf : List UInt8) :
    Option Worker := do
  let cgi ← w.cgi bev
  if buf = [] then
    return w
  let c ← w.conns.heap cgi.arg
  let writeQ ← chunkqueueAppend junk c.writeQ buf
  return { w with conns := w.conns.set cgi.arg { c with writeQ } }

/-- `_cgi_handle_err`. -/
def cgiHandleErr (w : Worker) (bev : Bev) : Worker :=
  { w with
    conns := { w.conns with freed := some bev :: w.conns.freed }
    cgis := w.cgis.filter (·.bev ≠ bev) }

/-- `_conn_handle_err`. -/
def connHandleErr (w : Worker) (p : ConnPtr) : Option Worker := do
  let conns ← connMgrDelConn w.conns p
  return { w with conns, client := Function.update w.client p none }

/-- The bytes in the write queue of an object. -/
def written (w : Worker) (p : ConnPtr) : List UInt8 :=
  (w.conns.heap p).elim [] fun c =>
    c.writeQ.chunks.flatMap fun ck => slice ck.mem.ptr 0 ck.mem.used

end Worker

/-- One event. -/
def workerStep (junk : Nat → UInt8) (w : Worker) : WorkerAct → Option Worker
  | .accept sock bev => w.accept sock bev
  | .request p buf answer fuel ok => w.connHandleRead junk p buf answer fuel ok
  | .cgiOutput bev buf => w.cgiHandleRead junk bev buf
  | .cgiExit bev => some (w.cgiHandleErr bev)
  | .disconnect p => w.connHandleErr p

end Donkeyji.MultiProgress
