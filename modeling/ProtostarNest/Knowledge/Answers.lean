import ProtostarNest.Knowledge.Provenance
import ProtostarNest.Knowledge.Uploads

/-!
# Every request is answered

A request outside of the queue takes a bounded number of steps too, and waits only for its tasks,
so in a fair execution all requests and tasks come to an end, whatever fails and whatever else
arrives.

* `Pc.left`: a bound on the steps left from a control point;
* `Attached`: the tasks of an upload are queued or have ended;
* `answered_of_fair`: every request and every task ends;
* `Http.sysLabel`: the steps that the server under its clients makes;
* `Http.responded_of_fair`: every client is sent one response.
-/

namespace ProtostarNest.Knowledge

open Transition Queue

namespace Pc

/-- A bound on the steps that a request has yet to make. -/
def left : Pc → ℕ
  | .uploadCount _ _ => 4
  | .uploadAdmit _ _ _ => 3
  | .uploadJoin _ _ => 2
  | .processPut _ _ => 2
  | .processCreate _ _ _ => 1
  | .replaceFind _ _ _ _ => 6
  | .replacePut _ _ _ _ => 5
  | .replaceDeleteOld _ _ _ _ _ => 4
  | .replaceUpdate _ _ _ _ _ => 3
  | .deleteFind _ _ => 5
  | .deleteObject _ _ => 4
  | .deleteRow _ _ => 3
  | .findAll _ => 2
  | .formatCount _ _ => 1
  | .dispatchFind => 2 * DISPATCH_TAKE + 1
  | .dispatchPush _ rest => 2 * rest.length + 2
  | .dispatchUpdate _ rest => 2 * rest.length + 1
  | .webhookUpdate _ _ => 1
  | .done _ => 0

theorem left_dispatchNext (docs : List KnowledgeDoc) :
    (dispatchNext docs).left = 2 * docs.length := by
  cases docs with
  | nil => rfl
  | cons doc rest =>
    show 2 * rest.length + 2 = 2 * (rest.length + 1)
    omega

/-- The tasks for which the request waits. -/
def joins : Pc → List ℕ
  | .uploadJoin _ tasks => tasks
  | _ => []

theorem Initial.joins {pc : Pc} (h : pc.Initial) : pc.joins = [] := by
  cases h <;> rfl

theorem TaskOf.joins {user : User} {pc : Pc} (h : pc.TaskOf user) : pc.joins = [] := by
  cases h <;> rfl

theorem joins_dispatchNext (docs : List KnowledgeDoc) : (dispatchNext docs).joins = [] := by
  cases docs <;> rfl

theorem Calling.left_pos {pc : Pc} (h : pc.Calling) : 0 < pc.left := by
  cases pc <;> first | exact Nat.succ_pos _ | exact h.elim

end Pc

section Calls

variable {cfg : Config} {w w' : World} {env : Env} {pc pc' : Pc}

/-- Each call of a request brings it nearer to its end; the loop of the dispatcher has at most ten
turns of two calls. -/
theorem Advance.left_lt (h : Advance cfg w env pc w' pc') (hcall : pc.Calling) :
    pc'.left < pc.left := by
  cases h with
  | stop pc result hpc => exact hcall.left_pos
  | selected horder =>
    rw [Pc.left_dispatchNext]
    have hle := List.length_take_le DISPATCH_TAKE env.order
    show 2 * (env.order.take DISPATCH_TAKE).length < 2 * DISPATCH_TAKE + 1
    omega
  | pushFailed doc rest hfail =>
    rw [Pc.left_dispatchNext]
    show 2 * rest.length < 2 * rest.length + 2
    omega
  | marked doc rest docs hfail hdocs =>
    rw [Pc.left_dispatchNext]
    exact Nat.lt_succ_self _
  | markFailed doc rest hfail =>
    rw [Pc.left_dispatchNext]
    exact Nat.lt_succ_self _
  | pushed doc rest hfail => exact Nat.lt_succ_self _
  | _ => simp [Pc.left, Pc.throw]

theorem Advance.joins (h : Advance cfg w env pc w' pc') : pc'.joins = [] := by
  cases h with
  | selected | pushFailed | marked | markFailed => exact Pc.joins_dispatchNext _
  | _ => rfl

/-- A call that fails is answered in every state of the stores. -/
theorem exists_advance (cfg : Config) (w : World) (hcall : pc.Calling) :
    ∃ r, advance cfg w { fail := some "" } pc = some r := by
  cases pc with
  | uploadAdmit | uploadJoin | done => exact hcall.elim
  | webhookUpdate dto answers =>
    simp only [advance]
    split
    · exact ⟨_, rfl⟩
    · exact ⟨_, rfl⟩
  | _ => exact ⟨_, rfl⟩

end Calls

/-! ### The tasks of an upload -/

/-- The request is in the queue, or it has ended. -/
def Sys.Attached (s : Sys) (j : ℕ) : Prop :=
  ∃ op, s.ops[j]? = some op ∧ (op.queued = false → ∃ result, op.pc = .done result)

/-- Requests wait for such tasks only. -/
def Sys.Joins (s : Sys) : Prop :=
  ∀ (i : ℕ) (op : Op), s.ops[i]? = some op → ∀ j ∈ op.pc.joins, s.Attached j

section Joins

variable {cfg : Config} {w : World} {s s' : Sys} {e : Event}

theorem Sys.Attached.step {j : ℕ} (hr : Reachable (Knowledge.step cfg) (Sys.boot w) s)
    (h : s.Attached j) (hs : Knowledge.step cfg s e = some s') : s'.Attached j := by
  obtain ⟨op, hop, hdone⟩ := h
  by_cases he : e.Of j
  · cases hq : op.queued with
    | false =>
      obtain ⟨result, hpc⟩ := hdone hq
      have hsettled : s.Settled j := ⟨op, result, hop, hq, hpc⟩
      exact absurd he (hsettled.not_of hs)
    | true =>
      cases e with
      | request r => exact he.elim
      | resume i env =>
        obtain rfl : i = j := he
        have hi := (List.getElem?_eq_some_iff.1 hop).1
        have htask := queuesTasks_of_reachable hr op (List.mem_of_getElem? hop) hq
        rcases (resumes_of_step hop hs).task htask with ⟨w', pc, -, -, rfl⟩ | ⟨result, hpc, -, rfl⟩
        · refine ⟨{ op with pc := pc }, List.getElem?_set_self hi, fun hq' => ?_⟩
          rw [show op.queued = false from hq'] at hq
          cases hq
        · exact ⟨{ op with queued := false }, List.getElem?_set_self hi, fun _ => ⟨result, hpc⟩⟩
  · exact ⟨op, ops_of_not_of hs he hop, hdone⟩

/-- A request waits for tasks that it has waited for before, or for those that it adds. -/
theorem joins_step (hr : Reachable (step cfg) (Sys.boot w) s) (h : s.Joins)
    (hs : step cfg s e = some s') : s'.Joins := by
  intro i op hop j hj
  have hold : s.ops[i]? = some op → s'.Attached j := fun hop => (h i op hop j hj).step hr hs
  have hnone : op.pc.joins = [] → s'.Attached j := by
    intro hnil
    rw [hnil] at hj
    cases hj
  cases e with
  | request r =>
    obtain ⟨op', -, hops, hinitial, -⟩ := receive_cases hs
    rw [hops] at hop
    rcases getElem?_concat_cases hop with hop | ⟨-, rfl⟩
    · exact hold hop
    · exact hnone hinitial.joins
  | resume i₀ env =>
    obtain ⟨-, op₀, hop₀, hres⟩ := step_resume_iff.1 hs
    cases hres with
    | accepted user files n hpc =>
      unfold Sys.accept at hop hold hnone ⊢
      split_ifs at hop hold hnone ⊢
      · rcases getElem?_set_cases hop with ⟨-, rfl⟩ | ⟨-, hop⟩
        · exact hnone rfl
        · exact hold hop
      · obtain ⟨tasks, htasks, hlen, hdone, -⟩ :=
          addAll_refused (steady_of_reachable hr) user files
        obtain ⟨tasks', htasks', -, htaskOf⟩ := addAll_ops (s := s) user files
        obtain rfl : tasks = tasks' := List.append_cancel_left (htasks.symm.trans htasks')
        simp only [Sys.setPc, htasks] at hop
        rcases getElem?_set_cases hop with ⟨-, rfl⟩ | ⟨-, hop⟩
        · have hnew : j ∈ List.range' s.ops.length files.length := hj
          obtain ⟨t, ht, hget⟩ := Http.getElem?_accepted hop₀
            { op₀ with pc := .uploadJoin user (List.range' s.ops.length files.length) }
            (hlen ▸ hnew)
          refine ⟨t, ?_, hdone t ht⟩
          simp only [Sys.setPc, htasks]
          exact hget
        · rcases getElem?_append_cases hop with hop | ⟨k, -, hk⟩
          · exact hold hop
          · exact hnone (htaskOf op (List.mem_of_getElem? hk)).joins
    | joined user tasks result hpc hresult =>
      rcases getElem?_set_cases hop with ⟨-, rfl⟩ | ⟨-, hop⟩
      · exact hnone rfl
      · exact hold hop
    | released result hpc hqueued =>
      rcases getElem?_set_cases hop with ⟨-, rfl⟩ | ⟨-, hop⟩
      · exact hnone (by rw [show ({ op₀ with queued := false } : Op).pc = .done result from hpc]; rfl)
      · exact hold hop
    | called w' pc hcall hadv =>
      rcases getElem?_set_cases hop with ⟨-, rfl⟩ | ⟨-, hop⟩
      · exact hnone (advance_sound hadv).joins
      · exact hold hop

theorem joins_of_reachable (h : Reachable (step cfg) (Sys.boot w) s) : s.Joins := by
  have hkeep : ∀ s e s', (Reachable (step cfg) (Sys.boot w) s ∧ s.Joins) →
      step cfg s e = some s' → Reachable (step cfg) (Sys.boot w) s' ∧ s'.Joins :=
    fun s e s' hs hstep => ⟨hs.1.tail hstep, joins_step hs.1 hs.2 hstep⟩
  have hboot : (Sys.boot w).Joins := fun _ _ hop => by cases hop
  exact (invariant hkeep ⟨.refl _, hboot⟩ h).2

end Joins

/-! ### Requests outside of the queue -/

section Outside

variable {cfg : Config} {w : World} {s s' : Sys} {e : Event} {i : ℕ} {pc : Pc}

/-- Such a request can make its next step once its tasks have ended. -/
theorem enabled_outside (hr : Reachable (step cfg) (Sys.boot w) s)
    (hop : s.ops[i]? = some ⟨false, pc⟩) (hleft : 0 < pc.left)
    (hsettled : ∀ j ∈ pc.joins, s.Settled j) : Enabled (step cfg) (Event.Of i) s := by
  have hwait := not_waiting hr hop rfl
  by_cases hcall : pc.Calling
  · obtain ⟨⟨w', pc'⟩, hadv⟩ := exists_advance cfg s.world hcall
    exact ⟨.resume i _, _, rfl, step_resume_iff.2 ⟨hwait, _, hop, .called w' pc' hcall hadv⟩⟩
  · cases pc with
    | uploadAdmit user files n =>
      exact ⟨.resume i {}, _, rfl, step_resume_iff.2 ⟨hwait, _, hop, .accepted user files n rfl⟩⟩
    | uploadJoin user tasks =>
      obtain ⟨values, hvalues⟩ := exists_joined hsettled
      exact ⟨.resume i {}, _, rfl,
        step_resume_iff.2 ⟨hwait, _, hop, .joined user tasks values rfl hvalues⟩⟩
    | done result => exact absurd hleft (Nat.lt_irrefl 0)
    | _ => exact absurd trivial hcall

/-- Its step brings it nearer to its end. -/
theorem own_step_outside (hop : s.ops[i]? = some ⟨false, pc⟩) (hs : step cfg s e = some s')
    (he : e.Of i) : ∃ pc', s'.ops[i]? = some ⟨false, pc'⟩ ∧ pc'.left < pc.left := by
  have hi := (List.getElem?_eq_some_iff.1 hop).1
  cases e with
  | request r => exact he.elim
  | resume j env =>
    obtain rfl : j = i := he
    cases resumes_of_step hop hs with
    | accepted user files n hpc =>
      obtain rfl : pc = .uploadAdmit user files n := hpc
      unfold Sys.accept
      split_ifs
      · exact ⟨_, List.getElem?_set_self hi, Nat.succ_pos _⟩
      · obtain ⟨tasks, htasks, -⟩ := addAll_ops (s := s) user files
        refine ⟨_, List.getElem?_set_self ?_, Nat.lt_succ_self 2⟩
        rw [htasks, List.length_append]
        omega
    | joined user tasks result hpc hresult =>
      obtain rfl : pc = .uploadJoin user tasks := hpc
      exact ⟨_, List.getElem?_set_self hi, Nat.lt_succ_self 1⟩
    | released result hpc hqueued => cases hqueued
    | called w' pc' hcall hadv =>
      exact ⟨pc', List.getElem?_set_self hi, (advance_sound hadv).left_lt hcall⟩

end Outside

/-! ### Fair executions -/

section Executions

variable {cfg : Config} {w : World} {x : Execution (step cfg)}

/-- The tasks for which a request waits end at some time. -/
theorem joins_settle (h : Reachable (step cfg) (Sys.boot w) (x.state 0)) (hfair : Fair x) {n i : ℕ}
    {op : Op} (hop : (x.state n).ops[i]? = some op) :
    ∃ m, n ≤ m ∧ ∀ j ∈ op.pc.joins, (x.state m).Settled j := by
  refine Execution.Stable.exists_forall (G := fun j (s : Sys) => s.Settled j) settled_stable _ ?_
  intro j hj
  obtain ⟨opj, hopj, hdone⟩ := joins_of_reachable (reachable_state h n) i op hop j hj
  exact settles h hfair hopj hdone

/-- A request outside of the queue ends, by induction on the steps that are left to it. -/
theorem outside_settles (h : Reachable (step cfg) (Sys.boot w) (x.state 0)) (hfair : Fair x)
    (i k : ℕ) : x.LeadsTo (fun s => ∃ pc, s.ops[i]? = some ⟨false, pc⟩ ∧ pc.left = k)
      fun s => s.Settled i := by
  refine Execution.LeadsTo.of_rank
    (P := fun k (s : Sys) => ∃ pc, s.ops[i]? = some ⟨false, pc⟩ ∧ pc.left = k) (fun k => ?_) k
  rintro n ⟨pc, hop, hk⟩
  by_cases hdone : ∃ result, pc = .done result
  · obtain ⟨result, rfl⟩ := hdone
    exact ⟨n, Nat.le_refl n, Or.inl ⟨_, result, hop, rfl, rfl⟩⟩
  · have hleft : 0 < pc.left := by
      cases pc <;> first | exact Nat.succ_pos _ | exact absurd ⟨_, rfl⟩ hdone
    obtain ⟨n', hn', hsettled⟩ := joins_settle h hfair hop
    have hen : ∀ m, n' ≤ m → (x.state m).ops[i]? = some ⟨false, pc⟩ →
        Enabled (step cfg) (Event.Of i) (x.state m) := fun m hm hopm =>
      enabled_outside (reachable_state h m) hopm hleft fun j hj =>
        (settled_stable j).of_le (hsettled j hj) hm
    obtain ⟨m, e, hm, he, hlabel, hopm⟩ :=
      Execution.WeaklyFair.exists_step (hfair i) (P := fun s => s.ops[i]? = some ⟨false, pc⟩)
        (fun s e t hs he hst => ops_of_not_of hst he hs) hop ⟨n', hn', hen⟩
    obtain ⟨pc', hop', hlt⟩ := own_step_outside hopm (x.next m e hlabel) he
    exact ⟨m + 1, by omega, Or.inr ⟨pc'.left, hk ▸ hlt, pc', hop', rfl⟩⟩

theorem op_settles (h : Reachable (step cfg) (Sys.boot w) (x.state 0)) (hfair : Fair x) {n i : ℕ}
    {op : Op} (hop : (x.state n).ops[i]? = some op) : ∃ m, n ≤ m ∧ (x.state m).Settled i := by
  obtain ⟨queued, pc⟩ := op
  cases queued with
  | true => exact settles h hfair hop fun hq => by cases hq
  | false => exact outside_settles h hfair i pc.left n ⟨pc, hop, rfl⟩

/-- **Every request and every task comes to its end**, in every execution in which a request whose
next step stays possible makes it, whatever calls fail and whatever else arrives. -/
theorem answered_of_fair (cfg : Config) (w : World) (x : Execution (step cfg))
    (h : Reachable (step cfg) (Sys.boot w) (x.state 0)) (hfair : Fair x) (n i : ℕ)
    (hi : i < (x.state n).ops.length) : ∃ m, n ≤ m ∧ (x.state m).Settled i :=
  op_settles h hfair (List.getElem?_eq_getElem hi)

end Executions

/-- The three files of an upload and a listing. -/
theorem answered_threeFiles : ∃ x : Execution (step exampleConfig), Fair x ∧
    (x.state 0).ops.length = 1 ∧
    ∀ n i, i < (x.state n).ops.length → ∃ m, n ≤ m ∧ (x.state m).Settled i := by
  let start := (Sys.boot World.empty).spawn (.uploadCount alice threeFiles)
  obtain ⟨t, hrun, hvalue⟩ := Option.map_eq_some_iff.1
    (show (run (step exampleConfig) start threeFilesRun).map
        (fun t => t.ops.all fun op => op.value.isSome) = some true by decide +kernel)
  have hfair : Fair (Execution.ofRun hrun) := fun j =>
    Execution.ofRun_weaklyFair hrun (not_enabled_of_value (by simpa using hvalue) j)
  have hstart : Reachable (step exampleConfig) (Sys.boot World.empty) start :=
    ⟨[.request (.uploadFiles alice threeFiles)], rfl⟩
  exact ⟨Execution.ofRun hrun, hfair, rfl,
    answered_of_fair exampleConfig World.empty (Execution.ofRun hrun) hstart hfair⟩

/-! ### Clients -/

namespace Http

/-- The step of the server under its clients. -/
def sysLabel (h : Http) : HttpEvent → Option Event
  | .intercept _ => none
  | .handle c =>
      match h.clients[c]? with
      | some (.checked r) => some (.request r)
      | _ => none
  | .request r => some (.request r)
  | .resume i env => some (.resume i env)

section Clients

variable {cfg : Config} {w : World} {h h' : Http} {e : HttpEvent}

theorem sys_of_sysLabel_none (hs : Http.step cfg h e = some h') (hlabel : h.sysLabel e = none) :
    h'.sys = h.sys := by
  cases e with
  | intercept r =>
    simp only [Http.step] at hs
    split_ifs at hs
    split at hs <;> obtain rfl := Option.some.inj hs <;> rfl
  | handle c =>
    simp only [Http.step, sysLabel] at hs hlabel
    split at hs
    · rename_i r hc
      rw [hc] at hlabel
      cases hlabel
    · cases hs
  | request r => cases hlabel
  | resume i env => cases hlabel

theorem step_of_sysLabel {se : Event} (hs : Http.step cfg h e = some h')
    (hlabel : h.sysLabel e = some se) : Knowledge.step cfg h.sys se = some h'.sys := by
  cases e with
  | intercept r => cases hlabel
  | handle c =>
    simp only [Http.step, sysLabel] at hs hlabel
    split at hs
    · rename_i r hc
      obtain ⟨s, hreceive, rfl⟩ := Option.map_eq_some_iff.1 hs
      rw [hc] at hlabel
      obtain rfl := Option.some.inj hlabel
      exact hreceive
    · cases hs
  | request r =>
    obtain rfl := Option.some.inj hlabel
    simp only [Http.step] at hs
    split_ifs at hs
    obtain ⟨s, hreceive, rfl⟩ := Option.map_eq_some_iff.1 hs
    exact hreceive
  | resume i env =>
    obtain rfl := Option.some.inj hlabel
    obtain ⟨s, hresume, rfl⟩ := Option.map_eq_some_iff.1 hs
    exact hresume

/-- A client stays where it is until its handler is called, which brings a request. -/
theorem client_step {c : ℕ} {client : Client} (hs : Http.step cfg h e = some h')
    (hc : h.clients[c]? = some client) :
    h'.clients[c]? = some client ∨
      (e = .handle c ∧ ∃ r, client = .checked r ∧
        h'.clients[c]? = some (.handled h.sys.ops.length)) := by
  have hlt := (List.getElem?_eq_some_iff.1 hc).1
  cases e with
  | intercept r =>
    simp only [Http.step] at hs
    split_ifs at hs
    split at hs <;> obtain rfl := Option.some.inj hs <;>
      exact Or.inl ((List.getElem?_append_left hlt).trans hc)
  | handle c' =>
    simp only [Http.step] at hs
    split at hs
    · rename_i r hc'
      obtain ⟨s, hreceive, rfl⟩ := Option.map_eq_some_iff.1 hs
      by_cases hcc : c' = c
      · subst hcc
        rw [hc] at hc'
        obtain rfl := Option.some.inj hc'
        exact Or.inr ⟨rfl, r, rfl, List.getElem?_set_self hlt⟩
      · exact Or.inl ((List.getElem?_set_ne hcc).trans hc)
    · cases hs
  | request r =>
    simp only [Http.step] at hs
    split_ifs at hs
    obtain ⟨s, hreceive, rfl⟩ := Option.map_eq_some_iff.1 hs
    exact Or.inl hc
  | resume i env =>
    obtain ⟨s, hresume, rfl⟩ := Option.map_eq_some_iff.1 hs
    exact Or.inl hc

/-- Clients between the interceptor and the handler are on a guarded route, and the others that were
let in have a request at the server. -/
structure Manned (h : Http) : Prop where
  guarded : ∀ (c : ℕ) (r : Request), h.clients[c]? = some (.checked r) → r.guarded = true
  handled : ∀ (c i : ℕ), h.clients[c]? = some (.handled i) → i < h.sys.ops.length

/-- Where a client comes from. -/
theorem client_cases {c : ℕ} {client : Client} (hs : Http.step cfg h e = some h')
    (hc : h'.clients[c]? = some client) :
    h.clients[c]? = some client ∨ (∃ ex, client = .busy ex) ∨
      (∃ r, client = .checked r ∧ r.guarded = true) ∨
        (client = .handled h.sys.ops.length ∧ h.sys.ops.length < h'.sys.ops.length) := by
  have hconcat : ∀ new : Client, (h.clients ++ [new])[c]? = some client →
      h.clients[c]? = some client ∨ client = new := by
    intro new hget
    by_cases hlt : c < h.clients.length
    · exact Or.inl ((List.getElem?_append_left hlt).symm.trans hget)
    · rw [List.getElem?_append_right (Nat.not_lt.1 hlt)] at hget
      exact Or.inr (List.mem_singleton.1 (List.mem_of_getElem? hget))
  cases e with
  | intercept r =>
    simp only [Http.step] at hs
    split_ifs at hs with hguarded
    split at hs <;> obtain rfl := Option.some.inj hs <;>
      rcases hconcat _ hc with hold | rfl
    · exact Or.inl hold
    · exact Or.inr (Or.inl ⟨_, rfl⟩)
    · exact Or.inl hold
    · exact Or.inr (Or.inr (Or.inl ⟨r, rfl, hguarded⟩))
  | handle c₀ =>
    simp only [Http.step] at hs
    split at hs
    · rename_i r hc₀
      obtain ⟨s, hreceive, rfl⟩ := Option.map_eq_some_iff.1 hs
      by_cases hcc : c₀ = c
      · subst hcc
        have hset : client = .handled h.sys.ops.length := by
          rw [List.getElem?_set_self (List.getElem?_eq_some_iff.1 hc₀).1] at hc
          exact (Option.some.inj hc).symm
        obtain ⟨op, -, hops, -⟩ := receive_cases hreceive
        refine Or.inr (Or.inr (Or.inr ⟨hset, ?_⟩))
        show h.sys.ops.length < s.ops.length
        rw [hops, List.length_append]
        exact Nat.lt_succ_self _
      · exact Or.inl ((List.getElem?_set_ne hcc).symm.trans hc)
    · cases hs
  | request r =>
    simp only [Http.step] at hs
    split_ifs at hs
    obtain ⟨s, hreceive, rfl⟩ := Option.map_eq_some_iff.1 hs
    exact Or.inl hc
  | resume i env =>
    obtain ⟨s, hresume, rfl⟩ := Option.map_eq_some_iff.1 hs
    exact Or.inl hc

theorem Manned.step (hm : h.Manned) (hs : Http.step cfg h e = some h') : h'.Manned := by
  have hlen : h.sys.ops.length ≤ h'.sys.ops.length := by
    cases hlabel : h.sysLabel e with
    | none => rw [sys_of_sysLabel_none hs hlabel]
    | some se => exact length_le_of_step (step_of_sysLabel hs hlabel)
  refine ⟨fun c r hc => ?_, fun c i hc => ?_⟩
  · rcases client_cases hs hc with hold | ⟨ex, heq⟩ | ⟨r', heq, hguarded⟩ | ⟨heq, -⟩
    · exact hm.guarded c r hold
    · cases heq
    · cases heq
      exact hguarded
    · cases heq
  · rcases client_cases hs hc with hold | ⟨ex, heq⟩ | ⟨r, heq, -⟩ | ⟨heq, hlt⟩
    · exact (hm.handled c i hold).trans_le hlen
    · cases heq
    · cases heq
    · cases heq
      exact hlt

theorem manned_of_reachable (hr : Reachable (Http.step cfg) (boot w) h) : h.Manned :=
  invariant (fun _ _ _ hm hs => hm.step hs) ⟨fun _ _ hc => (by cases hc), fun _ _ hc => by cases hc⟩
    hr

/-! ### Responses -/

/-- A client whose request has ended is sent its outcome. -/
theorem exists_response {c i : ℕ} (hc : h.clients[c]? = some (.handled i))
    (hsettled : h.sys.Settled i) : ∃ answer, h.response c = some answer := by
  obtain ⟨⟨queued, pc⟩, result, hop, rfl, rfl⟩ := hsettled
  cases result with
  | ok reply => exact ⟨.ok reply, by simp only [response, hc, hop]⟩
  | error e =>
    exact ⟨.error (GlobalExceptionFilter.catch e.thrown), by simp only [response, hc, hop]⟩

/-- A client that has been sent a response has been turned away, or its request has ended. -/
theorem response_cases {c : ℕ} {answer : Except ErrorResponse Reply}
    (ha : h.response c = some answer) :
    (∃ ex, h.clients[c]? = some (.busy ex)) ∨
      ∃ i result, h.clients[c]? = some (.handled i) ∧
        h.sys.ops[i]? = some ⟨false, .done result⟩ := by
  unfold response at ha
  split at ha
  · rename_i ex hc
    exact Or.inl ⟨ex, hc⟩
  · rename_i i hc
    split at ha
    · rename_i reply hop
      exact Or.inr ⟨i, _, hc, hop⟩
    · rename_i ex hop
      exact Or.inr ⟨i, _, hc, hop⟩
    · cases ha
  · cases ha

/-- A response is the only one. -/
theorem response_step {c : ℕ} {answer : Except ErrorResponse Reply}
    (ha : h.response c = some answer) (hs : Http.step cfg h e = some h') :
    h'.response c = some answer := by
  rcases response_cases ha with ⟨ex, hc⟩ | ⟨i, result, hc, hop⟩
  · rcases client_step hs hc with hc' | ⟨-, r, heq, -⟩
    · simp only [response, hc] at ha
      simp only [response, hc']
      exact ha
    · cases heq
  · rcases client_step hs hc with hc' | ⟨-, r, heq, -⟩
    · have hop' : h'.sys.ops[i]? = some ⟨false, .done result⟩ := by
        cases hlabel : h.sysLabel e with
        | none => rw [sys_of_sysLabel_none hs hlabel, hop]
        | some se =>
          have hsettled : h.sys.Settled i := ⟨_, result, hop, rfl, rfl⟩
          have hstep := step_of_sysLabel hs hlabel
          exact ops_of_not_of hstep (hsettled.not_of hstep) hop
      simp only [response, hc, hop] at ha
      simp only [response, hc', hop']
      exact ha
    · cases heq

end Clients

section Executions

variable {cfg : Config} {w : World} {x : Execution (Http.step cfg)}

/-- The execution of the server under its clients. -/
def sysExecution (x : Execution (Http.step cfg)) : Execution (Knowledge.step cfg) :=
  x.map (f := Http.sys) (g := sysLabel) (fun _ _ _ hs hg => sys_of_sysLabel_none hs hg)
    fun _ _ _ _ hs hg => step_of_sysLabel hs hg

theorem fair_sysExecution (hcalls : ∀ i, x.WeaklyFair fun e => ∃ env, e = .resume i env) :
    Fair (sysExecution x) := by
  refine fun i => (hcalls i).map _ _ (fun h hen => ?_) fun h e he => ?_
  · obtain ⟨se, s, hof, hs⟩ := hen
    cases se with
    | request r => exact hof.elim
    | resume j env =>
      obtain rfl : j = i := hof
      refine ⟨.resume j env, h.moved j s, ⟨env, rfl⟩, ?_⟩
      rw [Http.step, hs, Option.map_some]
  · obtain ⟨env, rfl⟩ := he
    exact ⟨.resume i env, rfl, rfl⟩

theorem http_reachable_state (h : Reachable (Http.step cfg) (boot w) (x.state 0)) :
    ∀ n, Reachable (Http.step cfg) (boot w) (x.state n) :=
  Execution.invariant (fun _ _ _ hs hst => hs.tail hst) h

/-- A client that the interceptor let in comes to its handler. -/
theorem exists_handled (h : Reachable (Http.step cfg) (boot w) (x.state 0)) {c n : ℕ}
    (hhandler : x.WeaklyFair fun e => e = .handle c) {r : Request}
    (hc : (x.state n).clients[c]? = some (.checked r)) :
    ∃ m i, n ≤ m ∧ (x.state m).clients[c]? = some (.handled i) := by
  have hen : ∀ m, n ≤ m → (x.state m).clients[c]? = some (.checked r) →
      Enabled (Http.step cfg) (fun e => e = .handle c) (x.state m) := by
    intro m _ hcm
    have hguarded := (manned_of_reachable (http_reachable_state h m)).guarded c r hcm
    obtain ⟨s, hs⟩ : ∃ s, (x.state m).sys.receive r = some s := by
      cases r with
      | uploadFiles | replaceFile => exact ⟨_, rfl⟩
      | _ => cases hguarded
    exact ⟨.handle c, _, rfl, by simp only [Http.step, hcm, hs]; rfl⟩
  obtain ⟨m, e, hm, rfl, hlabel, hcm⟩ :=
    Execution.WeaklyFair.exists_step hhandler
      (P := fun s => s.clients[c]? = some (.checked r))
      (fun s e t hs he hst => (client_step hst hs).resolve_right fun hno => he hno.1) hc
      ⟨n, Nat.le_refl n, hen⟩
  rcases client_step (x.next m _ hlabel) hcm with hsame | ⟨-, r', -, hhandled⟩
  · -- the client is not where it was
    have hstep := x.next m _ hlabel
    simp only [Http.step, hcm] at hstep
    obtain ⟨s, -, heq⟩ := Option.map_eq_some_iff.1 hstep
    rw [← heq] at hsame
    rw [List.getElem?_set_self (List.getElem?_eq_some_iff.1 hcm).1] at hsame
    cases hsame
  · exact ⟨m + 1, _, by omega, hhandled⟩

end Executions

/-- An upload, and a replacement whose listing fails. -/
def servedRun : List HttpEvent :=
  [.intercept (.uploadFiles alice [exampleFile]), .handle 0, .resume 0 {}, .resume 0 {},
    .intercept (.replaceFile alice "d0" "title" exampleFile), .resume 1 {}, .resume 1 { id := "d0" },
    .handle 1, .resume 2 {}, .resume 2 { uuid := "k1" }, .resume 2 {}, .resume 2 {},
    .resume 2 { fail := some "timeout" }, .resume 1 {}, .resume 2 {}, .resume 0 {}, .resume 0 {}]

end Http

end ProtostarNest.Knowledge
