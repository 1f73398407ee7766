import RpcLock.Library.Machine
import RpcLock.Rpcs.ReplyTables

/-!
# `rpcs::dispatch`

A server instance runs `dispatch` for every request, on any number of threads.
A *job* is one activation: its request, its connection, the buffer of its local
`marshall rep`, and how far it got.  `Server.next` is one atomic step of one
job, cut at the mutexes the source takes: the two critical sections under
`reply_window_m_` and the two under `conss_m_` are separate steps, and so are
the handler, which marshalls its result into `rep`, the packing of the reply
header and the send.  The threads of `dispatchpool_` are not counted here, and a
handler returns whenever its step is taken, which allows every run of the pool.

Buffers live in a heap.  `malloc` returns any block that is not allocated and
leaves the bytes in it alone.  `free` leaves them alone too.  `send` reads the
block its pointer names at the moment it runs, whoever owns the block by then.
The block of a `marshall` is the one its last `realloc` gave it.

A failed `VERIFY` and a call through a null pointer abort the process: `aborted`
is set and no further step is enabled.

The result of a handler is chosen by the label, except that `rpcbind` returns
the nonce.  `execs` and `sent` record what the server did.
-/

namespace RpcLock.Rpcs

/-! ## State -/

/-- A malloc block.  `pdu` is what was last packed into it. -/
structure Block where
  allocated : Bool
  pdu : Reply
deriving DecidableEq, Repr

/-- How far an activation of `dispatch` got. -/
inductive Phase where
  /-- The header is unpacked and the handler looked up. -/
  | unpacked
  /-- `reply_window_[clt_nonce]` exists. -/
  | windowReady
  /-- The connection is saved in `conns_`. -/
  | connSaved
  /-- The verdict is `NEW` and the handler is about to run. -/
  | accepted
  /-- `f->fn` returned this value and marshalled these bytes. -/
  | ran (ret : Int) (out : List UInt8)
  /-- The header stands in front of them. -/
  | packed (ret : Int) (out : List UInt8)
  /-- `add_reply` has run, `b1` and `sz1` are set. -/
  | stored (b : Ptr) (sz : Int)
  /-- About to call `c->send(b, sz)`. -/
  | sending (b : Ptr) (sz : Int)
  | finished
deriving DecidableEq, Repr

/-- An activation of `dispatch`. -/
structure Job where
  conn : ConnId
  req : Request
  /-- The buffer of the local `marshall rep`. -/
  rep : Ptr
  /-- `stat`, once `checkduplicate_and_update` returned. -/
  verdict : Option RpcState
  phase : Phase
deriving DecidableEq, Repr

/-- A handler execution. -/
structure Exec where
  /-- The job that ran the handler. -/
  job : Nat
  req : Request
  ret : Int
  out : List UInt8
deriving DecidableEq, Repr

/-- A reply put on a connection, with the request whose activation sent it. -/
structure Sent where
  conn : ConnId
  req : Request
  pdu : Reply
deriving DecidableEq, Repr

/-- What is fixed for a server instance. -/
structure ServerConfig where
  /-- `nonce_` -/
  nonce : UInt32
  /-- Whether `procs_` has a handler, apart from bind. -/
  registered : UInt32 → Bool
  /-- `create_time_` of a connection. -/
  createTime : ConnId → Nat

/-- A server instance. -/
structure Server where
  tables : ReplyTables
  /-- `conns_` -/
  conns : UInt32 → Option ConnId
  heap : Ptr → Block
  jobs : Nat → Option Job
  aborted : Bool
  execs : List Exec
  sent : List Sent

/-- `rpcs::rpcs`. -/
def Server.init : Server where
  tables := .empty
  conns _ := none
  heap _ := ⟨false, ⟨0, 0, []⟩⟩
  jobs _ := none
  aborted := false
  execs := []
  sent := []

/-- The steps of a server instance. -/
inductive ServerAct where
  /-- A thread enters `dispatch` with this request.  `p` is the block its
  `marshall rep` gets. -/
  | receive (j : Nat) (c : ConnId) (req : Request) (p : Ptr)
  | createWindow (j : Nat)
  | saveConn (j : Nat)
  | check (j : Nat)
  | runHandler (j : Nat) (ret : Int) (out : List UInt8)
  | packReplyHeader (j : Nat)
  | addReply (j : Nat)
  /-- `dead` is what `c->isdead()` returns. -/
  | pickConn (j : Nat) (dead : Bool)
  | send (j : Nat)
deriving DecidableEq, Repr

/-! ## The heap -/

/-- Pack a PDU into a block. -/
def pack (h : Ptr → Block) (p : Ptr) (r : Reply) : Ptr → Block :=
  Function.update h p { h p with pdu := r }

/-- The handler marshalls its result: the bytes behind the header. -/
def marshallResult (h : Ptr → Block) (p : Ptr) (out : List UInt8) : Ptr → Block :=
  pack h p { (h p).pdu with payload := out }

/-- `marshall::pack_reply_header`. -/
def packReplyHeader (h : Ptr → Block) (p : Ptr) (xid : UInt32) (ret : Int) : Ptr → Block :=
  pack h p { (h p).pdu with xid := xid, ret := ret }

/-- `malloc` of a block: the old bytes are still in it. -/
def malloc (h : Ptr → Block) (p : Ptr) : Ptr → Block :=
  Function.update h p { h p with allocated := true }

/-- `free` of a list of blocks. -/
def freeAll (h : Ptr → Block) (ps : List Ptr) : Ptr → Block := fun p =>
  if p ∈ ps then { h p with allocated := false } else h p

/-- The bytes `send(b, sz)` puts on the wire: the header and what of the result
fits in `sz`. -/
def readPdu (h : Ptr → Block) (b : Ptr) (sz : Int) : Reply :=
  { (h b).pdu with payload := (h b).pdu.payload.take (sz - rpcHeaderSz).toNat }

/-- Whether the block of `rep` is still the job's own.  `take_buf` gives it to
the reply window, or to `b1` when the client opted out. -/
def Job.ownsRep (job : Job) : Bool :=
  match job.phase with
  | .stored _ _ | .sending _ _ =>
      decide (job.verdict ≠ some .new ∨ job.req.cltNonce = 0)
  | .finished => false
  | _ => true

/-- The saved reply buffer the job obtained on `DONE` or stored on `NEW` and has
not finished sending. -/
def Job.shared (job : Job) : Option Ptr :=
  match job.phase with
  | .stored b _ | .sending b _ =>
      if job.verdict = some .done ∨ job.verdict = some .new ∧ job.req.cltNonce ≠ 0 then some b
      else none
  | _ => none

/-- What the end of `dispatch` frees: the block of `rep`, if it is still owned. -/
def Job.release (h : Ptr → Block) (job : Job) : Ptr → Block :=
  if job.ownsRep then freeAll h [job.rep] else h

/-! ## Steps -/

namespace Server

/-- Set the entry of a job. -/
def setJob (s : Server) (j : Nat) (job : Job) : Server :=
  { s with jobs := Function.update s.jobs j (some job) }

/-- The process is gone. -/
def abort (s : Server) : Server := { s with aborted := true }

/-- Continue with the job `j`, if the process lives and `j` exists. -/
def withJob (s : Server) (j : Nat) (f : Job → Option Server) : Option Server :=
  if s.aborted then none
  else match s.jobs j with
    | none => none
    | some job => f job

/-- The entry of `dispatch`, up to the handler lookup. -/
def receive (cfg : ServerConfig) (s : Server) (j : Nat) (c : ConnId) (req : Request) (p : Ptr) :
    Server :=
  let s₁ := { s with heap := malloc s.heap p }
  -- is client sending to an old instance of server?
  if req.srvNonce ≠ 0 ∧ req.srvNonce ≠ cfg.nonce then
    { s₁ with heap := pack s₁.heap p ⟨req.xid, RpcConst.oldsrvFailure, []⟩ }.setJob j
      ⟨c, req, p, none, .sending p rpcHeaderSz⟩
  -- is RPC proc a registered procedure?
  else if ¬ (cfg.registered req.proc ∨ req.proc = RpcConst.bind) then s.abort
  -- this client does not require at most once logic
  else if req.cltNonce = 0 then s₁.setJob j ⟨c, req, p, some .new, .accepted⟩
  else s₁.setJob j ⟨c, req, p, none, .unpacked⟩

/-- The connection `conns_[clt_nonce]` holds after `c` was offered. -/
def newestConn (cfg : ServerConfig) (old : Option ConnId) (c : ConnId) : ConnId :=
  match old with
  | none => c
  | some c' => if cfg.createTime c' < cfg.createTime c then c else c'

/-- The job after its verdict. -/
def afterCheck (s : Server) (j : Nat) (job : Job) (r : ReplyTables.CheckResult) : Server :=
  let s := { s with tables := r.tables, heap := freeAll s.heap r.freed }
  let job := { job with verdict := some r.verdict }
  match r.verdict, r.reply with
  | .new, _ => s.setJob j { job with phase := .accepted }
  | .inprogress, _ =>
      { s with heap := job.release s.heap }.setJob j { job with phase := .finished }
  | .done, some e => s.setJob j { job with phase := .sending e.buf e.sz }
  -- not reached: `DONE` comes with the entry
  | .done, none => s.abort
  | .forgotten, _ =>
      { s with heap := pack s.heap job.rep ⟨job.req.xid, RpcConst.atmostonceFailure, []⟩ }.setJob j
        { job with phase := .sending job.rep rpcHeaderSz }

/-- The check of `dispatch`: `checkduplicate_and_update` on the header. -/
def checkResult (s : Server) (req : Request) : Option ReplyTables.CheckResult :=
  s.tables.checkduplicateAndUpdate req.cltNonce req.xid req.xidRep

/-- What `rpcbind` can return: the nonce, or a failure of its stub. -/
def bindResult (cfg : ServerConfig) (ret : Int) (out : List UInt8) : Prop :=
  ret = 0 ∧ out = bindPayload cfg.nonce ∨ ret = RpcConst.unmarshalArgsFailure

instance (cfg : ServerConfig) (ret : Int) (out : List UInt8) :
    Decidable (bindResult cfg ret out) := inferInstanceAs (Decidable (_ ∨ _))

/-- The job after its handler returned. -/
def afterHandler (s : Server) (j : Nat) (job : Job) (ret : Int) (out : List UInt8) : Server :=
  { s with
    execs := s.execs ++ [(⟨j, job.req, ret, out⟩ : Exec)]
    heap := marshallResult s.heap job.rep out }.setJob j { job with phase := .ran ret out }

/-- One step of a server instance. -/
def next (cfg : ServerConfig) (s : Server) : ServerAct → Option Server
  | .receive j c req p =>
      if s.aborted ∨ (s.jobs j).isSome ∨ (s.heap p).allocated then none
      else some (s.receive cfg j c req p)
  | .createWindow j => s.withJob j fun job =>
      match job.phase with
      | .unpacked =>
          some ({ s with tables := s.tables.createWindow job.req.cltNonce }.setJob j
            { job with phase := .windowReady })
      | _ => none
  | .saveConn j => s.withJob j fun job =>
      match job.phase with
      | .windowReady =>
          some ({ s with
            conns := Function.update s.conns job.req.cltNonce
              (some (newestConn cfg (s.conns job.req.cltNonce) job.conn)) }.setJob j
            { job with phase := .connSaved })
      | _ => none
  | .check j => s.withJob j fun job =>
      match job.phase with
      | .connSaved =>
          match s.checkResult job.req with
          | none => some s.abort
          | some r => some (s.afterCheck j job r)
      | _ => none
  | .runHandler j ret out => s.withJob j fun job =>
      match job.phase with
      | .accepted =>
          if job.req.proc = RpcConst.bind ∧ ¬ bindResult cfg ret out then none
          else
            -- VERIFY(0) on unmarshal_args_failure, VERIFY(rh.ret >= 0)
            if ret < 0 then some (s.afterHandler j job ret out).abort
            else some (s.afterHandler j job ret out)
      | _ => none
  | .packReplyHeader j => s.withJob j fun job =>
      match job.phase with
      | .ran ret out =>
          some ({ s with heap := packReplyHeader s.heap job.rep job.req.xid ret }.setJob j
            { job with phase := .packed ret out })
      | _ => none
  | .addReply j => s.withJob j fun job =>
      match job.phase with
      | .packed ret out =>
          let sz := Reply.size ⟨job.req.xid, ret, out⟩
          let job' := { job with phase := .stored job.rep sz }
          if job.req.cltNonce = 0 then some (s.setJob j job')
          else match s.tables.addReply job.req.cltNonce job.req.xid job.rep sz with
            | none => some s.abort
            | some t => some ({ s with tables := t }.setJob j job')
      | _ => none
  | .pickConn j dead => s.withJob j fun job =>
      match job.phase with
      | .stored b sz =>
          if dead ∧ s.conns job.req.cltNonce ≠ some job.conn then
            match s.conns job.req.cltNonce with
            -- `conns_[h.clt_nonce]` is a null pointer and `c->incref()` goes through it
            | none => some s.abort
            | some c => some (s.setJob j { job with conn := c, phase := .sending b sz })
          else some (s.setJob j { job with phase := .sending b sz })
      | _ => none
  | .send j => s.withJob j fun job =>
      match job.phase with
      | .sending b sz =>
          let s' : Server := { s with
            sent := s.sent ++ [⟨job.conn, job.req, readPdu s.heap b sz⟩]
            heap := job.release s.heap }
          some (s'.setJob j { job with phase := .finished })
      | _ => none

end Server

/-- A server instance under arbitrary traffic. -/
def serverMachine (cfg : ServerConfig) : Machine Server ServerAct where
  init := .init
  next := Server.next cfg

end RpcLock.Rpcs
