import RpcLock.Rpcs.DispatchSteps
import RpcLock.Rpcs.ReplyWindow

/-!
# Who a server talks to

If every request arrives on a connection of the client that made it, then every
activation answers on a connection of that client: its own, or the newest one
saved for its nonce.  `P k req` stands for "client `k` made the request `req`".

The lower bound of a client is always an acknowledgement that one of its
requests carried.
-/

namespace RpcLock.Rpcs

namespace Server

variable {cfg : ServerConfig} {s s' s₁ : Server} {a : ServerAct}

/-! ## What connections carry -/

/-- Activations and replies are on connections with the relation `R` to their
request, and saved connections have the relation `E` to the nonce. -/
structure Carried (R : ConnId → Request → Prop) (E : UInt32 → ConnId → Prop) (s : Server) :
    Prop where
  jobs : ∀ j job, s.jobs j = some job → R job.conn job.req
  conns : ∀ n c, s.conns n = some c → E n c
  sent : ∀ m ∈ s.sent, R m.conn m.req

section

variable {R R' : ConnId → Request → Prop} {E E' : UInt32 → ConnId → Prop}

theorem carried_init : Carried R E Server.init where
  jobs := by simp [Server.init]
  conns := by simp [Server.init]
  sent := by simp [Server.init]

theorem Carried.mono (h : Carried R E s) (hR : ∀ c req, R c req → R' c req)
    (hE : ∀ n c, E n c → E' n c) : Carried R' E' s :=
  ⟨fun j job hj => hR _ _ (h.jobs j job hj), fun n c hc => hE n c (h.conns n c hc),
    fun m hm => hR _ _ (h.sent m hm)⟩

/-- A step that changes one job and neither the saved connections nor what was
sent. -/
theorem Carried.setJob (h : Carried R E s) {j : Nat} {job : Job}
    (hjobs : s₁.jobs = s.jobs) (hconns : s₁.conns = s.conns) (hsent : s₁.sent = s.sent)
    (hjob : R job.conn job.req) : Carried R E (s₁.setJob j job) where
  jobs k kob hk := by
    rcases setJob_jobs_cases hk with ⟨rfl, rfl⟩ | ⟨-, hk⟩
    · exact hjob
    · exact h.jobs k kob (hjobs ▸ hk)
  conns n c hc := h.conns n c (hconns ▸ hc)
  sent m hm := h.sent m (hsent ▸ hm)

/-- The same for a job that keeps its request and its connection. -/
theorem Carried.move (h : Carried R E s) {j : Nat} {job job' : Job}
    (hjobs : s₁.jobs = s.jobs) (hconns : s₁.conns = s.conns) (hsent : s₁.sent = s.sent)
    (hj : s.jobs j = some job) (hconn : job'.conn = job.conn) (hreq : job'.req = job.req) :
    Carried R E (s₁.setJob j job') :=
  h.setJob hjobs hconns hsent (by rw [hconn, hreq]; exact h.jobs j job hj)

theorem Carried.abort (h : Carried R E s) : Carried R E s.abort := ⟨h.jobs, h.conns, h.sent⟩

/-- A step keeps the relations when a connection can be saved for the requests it
carries, and a saved one can carry the requests of its nonce. -/
theorem carried_next (hRE : ∀ c req, R c req → E req.cltNonce c)
    (hER : ∀ c c' req, R c req → E req.cltNonce c' → R c' req) (h : Carried R E s)
    (hrecv : ∀ j c req p, a = .receive j c req p → R c req)
    (hn : s.next cfg a = some s') : Carried R E s' := by
  cases step_of_next hn with
  | oldServer => exact h.setJob rfl rfl rfl (hrecv _ _ _ _ rfl)
  | optOut => exact h.setJob rfl rfl rfl (hrecv _ _ _ _ rfl)
  | receive => exact h.setJob rfl rfl rfl (hrecv _ _ _ _ rfl)
  | createWindow hj _ => exact h.move rfl rfl rfl hj rfl rfl
  | @saveConn j job hj _ =>
      have hr : Carried R E (s.setJob j { job with phase := .connSaved }) :=
        h.move rfl rfl rfl hj rfl rfl
      refine ⟨hr.jobs, fun n c hc => ?_, hr.sent⟩
      by_cases hnn : n = job.req.cltNonce
      · subst hnn
        simp only [setJob_conns, Function.update_self, Option.some.injEq] at hc
        subst hc
        have hself : E job.req.cltNonce job.conn := hRE _ _ (h.jobs j job hj)
        unfold newestConn
        split
        · exact hself
        · next c' hc' =>
            split
            · exact hself
            · exact h.conns _ c' hc'
      · simp only [setJob_conns, ne_eq, hnn, not_false_eq_true, Function.update_of_ne] at hc
        exact h.conns n c hc
  | checkNew hj _ _ _ => exact h.move rfl rfl rfl hj rfl rfl
  | checkInprogress hj _ _ _ => exact h.move rfl rfl rfl hj rfl rfl
  | checkDone hj _ _ _ _ => exact h.move rfl rfl rfl hj rfl rfl
  | checkForgotten hj _ _ _ => exact h.move rfl rfl rfl hj rfl rfl
  | runHandler hj _ _ _ => exact h.move rfl rfl rfl hj rfl rfl
  | handlerAbort hj _ _ _ =>
      refine Carried.abort ?_
      exact h.move rfl rfl rfl hj rfl rfl
  | packReplyHeader hj _ => exact h.move rfl rfl rfl hj rfl rfl
  | addReplyOptOut hj _ _ => exact h.move rfl rfl rfl hj rfl rfl
  | addReply hj _ _ _ => exact h.move rfl rfl rfl hj rfl rfl
  | keepConn hj _ => exact h.move rfl rfl rfl hj rfl rfl
  | @moveConn j job dead b sz c hj _ hc =>
      exact h.setJob rfl rfl rfl (hER _ c _ (h.jobs j job hj) (h.conns _ c hc))
  | @send j job b sz hj _ =>
      have hr : Carried R E (s.setJob j { job with phase := .finished }) :=
        h.move rfl rfl rfl hj rfl rfl
      refine ⟨hr.jobs, hr.conns, fun m hm => ?_⟩
      rcases List.mem_append.mp hm with hm | hm
      · exact h.sent m hm
      · rw [List.mem_singleton] at hm
        subst hm
        exact h.jobs j job hj
  | abort => exact h.abort

end

/-! ## Clients with connections of their own -/

/-- Requests, saved connections and replies stay with their client. -/
structure Routed {K : Type} (owner : ConnId → K) (nonce : K → UInt32) (P : K → Request → Prop)
    (s : Server) : Prop where
  jobs : ∀ j job, s.jobs j = some job → P (owner job.conn) job.req
  conns : ∀ n c, s.conns n = some c → nonce (owner c) = n
  sent : ∀ m ∈ s.sent, P (owner m.conn) m.req

variable {K : Type} {owner : ConnId → K} {nonce : K → UInt32} {P Q : K → Request → Prop}

theorem routed_iff_carried : Routed owner nonce P s ↔
    Carried (fun c req => P (owner c) req) (fun n c => nonce (owner c) = n) s :=
  ⟨fun h => ⟨h.jobs, h.conns, h.sent⟩, fun h => ⟨h.jobs, h.conns, h.sent⟩⟩

theorem routed_init : Routed owner nonce P Server.init := routed_iff_carried.mpr carried_init

theorem Routed.mono (h : Routed owner nonce P s) (hPQ : ∀ k req, P k req → Q k req) :
    Routed owner nonce Q s :=
  routed_iff_carried.mpr
    ((routed_iff_carried.mp h).mono (fun _ _ => hPQ _ _) fun _ _ hc => hc)

theorem routed_next (hP : ∀ k req, P k req → req.cltNonce = nonce k)
    (hinj : Function.Injective nonce) (h : Routed owner nonce P s)
    (hrecv : ∀ j c req p, a = .receive j c req p → P (owner c) req)
    (hn : s.next cfg a = some s') : Routed owner nonce P s' := by
  refine routed_iff_carried.mpr (carried_next (fun c req hc => (hP _ _ hc).symm)
    (fun c c' req hc hc' => ?_) (routed_iff_carried.mp h) hrecv hn)
  -- the saved connection belongs to the client of the request
  have hown : owner c' = owner c := hinj (hc'.trans (hP _ _ hc))
  rwa [hown]

/-- A new lower bound is an acknowledgement some request of the client carried. -/
theorem bound_of_next (hn : s.next cfg a = some s') {n lb : UInt32}
    (hlb : s'.tables.replyLowerBound n = some lb) :
    s.tables.replyLowerBound n = some lb ∨
      ∃ j job, s.jobs j = some job ∧ job.req.cltNonce = n ∧ job.req.xidRep = lb := by
  have hcheck : ∀ j job r, s.jobs j = some job → s.checkResult job.req = some r →
      r.tables.replyLowerBound n = some lb → s.tables.replyLowerBound n = some lb ∨
      ∃ j job, s.jobs j = some job ∧ job.req.cltNonce = n ∧ job.req.xidRep = lb := by
    intro j job r hj hr hb
    obtain ⟨t₁, hraise, ht, -, -⟩ := ReplyTables.checkduplicateAndUpdate_inv hr
    rw [ht, ReplyTables.insertSeen_bound] at hb
    by_cases hnn : n = job.req.cltNonce
    · subst hnn
      obtain ⟨b, hb', -, hba, -⟩ := ReplyTables.raiseLowerBound_bound hraise
      rw [hb] at hb'
      cases hb'
      rcases hba with rfl | hold
      · exact .inr ⟨j, job, hj, rfl, rfl⟩
      · exact .inl hold
    · rw [(ReplyTables.raiseLowerBound_ne hraise hnn).1] at hb
      exact .inl hb
  cases step_of_next hn with
  | createWindow => exact .inl (by simpa [ReplyTables.createWindow_bound] using hlb)
  | checkNew hj _ hr _ => exact hcheck _ _ _ hj hr hlb
  | checkInprogress hj _ hr _ => exact hcheck _ _ _ hj hr hlb
  | checkDone hj _ hr _ _ => exact hcheck _ _ _ hj hr hlb
  | checkForgotten hj _ hr _ => exact hcheck _ _ _ hj hr hlb
  | addReply _ _ _ ht =>
      left
      rw [← (ReplyTables.addReply_inv ht).1]
      exact hlb
  | _ => exact .inl hlb

end Server

end RpcLock.Rpcs
