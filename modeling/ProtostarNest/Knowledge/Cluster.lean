import ProtostarNest.Knowledge.System

/-!
# Several instances of the server

The blue and the green instance of a deployment, or any number of them, each with a work queue and
requests of its own, on one database, one bucket and one Redis.

* `Instance`, `Cluster`: what each instance has, and what they share;
* `Cluster.step`: a step of one instance;
* `Cluster.op?`: the request at a place, the number of an instance and of a request on it;
* `Cluster.step_cases`: what a step does to the stores and the requests.
-/

namespace ProtostarNest.Knowledge

open Transition Queue

structure Instance where
  queue : QueueService ℕ
  ops : List Op

structure Cluster where
  world : World
  instances : List Instance

namespace Cluster

/-- `n` instances that have just started. -/
def boot (w : World) (n : ℕ) : Cluster := ⟨w, List.replicate n ⟨.init, []⟩⟩

variable (c : Cluster)

/-- The instance as a server of its own. -/
def sys (inst : Instance) : Sys := ⟨c.world, inst.queue, inst.ops⟩

/-- The request at a place. -/
def op? (p : ℕ × ℕ) : Option Op := c.instances[p.1]?.bind fun inst => inst.ops[p.2]?

def pc? (p : ℕ × ℕ) : Option Pc := (c.op? p).map Op.pc

/-- The requests on all instances. -/
def ops : List Op := c.instances.flatMap Instance.ops

/-- A step of the instance `e.1`. -/
def step (cfg : Config) (c : Cluster) (e : ℕ × Event) : Option Cluster :=
  c.instances[e.1]?.bind fun inst =>
    (Knowledge.step cfg (c.sys inst) e.2).map fun s =>
      ⟨s.world, c.instances.set e.1 ⟨s.queue, s.ops⟩⟩

variable {c} {c' : Cluster} {p : ℕ × ℕ} {op : Op}

theorem mem_ops : op ∈ c.ops ↔ ∃ p, c.op? p = some op := by
  simp only [ops, List.mem_flatMap, op?, Option.bind_eq_some_iff]
  constructor
  · rintro ⟨inst, hinst, hop⟩
    obtain ⟨k, hk⟩ := List.mem_iff_getElem?.1 hinst
    obtain ⟨i, hi⟩ := List.mem_iff_getElem?.1 hop
    exact ⟨(k, i), inst, hk, hi⟩
  · rintro ⟨p, inst, hinst, hop⟩
    exact ⟨inst, List.mem_of_getElem? hinst, List.mem_of_getElem? hop⟩

theorem op?_boot (w : World) (n : ℕ) (p : ℕ × ℕ) : (boot w n).op? p = none := by
  rw [op?, Option.bind_eq_none_iff]
  intro inst hinst
  obtain rfl := (List.mem_replicate.1 (List.mem_of_getElem? hinst)).2
  rfl

/-- A step that touches no store: requests come, or idle ones move on. -/
structure Quiet (c c' : Cluster) : Prop where
  world : c'.world = c.world
  old_or_idle : ∀ (p : ℕ × ℕ) (op : Op), c'.op? p = some op → c.op? p = some op ∨ op.pc.Idle
  kept : ∀ (p : ℕ × ℕ) (op : Op), c.op? p = some op → c'.op? p = some op ∨ op.pc.Idle

/-- The request at `p` makes a call and moves on. -/
structure Calls (cfg : Config) (c c' : Cluster) (p : ℕ × ℕ) (env : Env) (op : Op) (w : World)
    (pc : Pc) : Prop where
  op_eq : c.op? p = some op
  advance : Advance cfg c.world env op.pc w pc
  world : c'.world = w
  op_self : c'.op? p = some { op with pc := pc }
  op_ne : ∀ q, q ≠ p → c'.op? q = c.op? q

theorem op?_of_instance {k i : ℕ} {inst : Instance} (h : c.instances[k]? = some inst) :
    c.op? (k, i) = inst.ops[i]? := by
  rw [op?, h, Option.bind_some]

/-- What a step does to the stores and the requests. -/
theorem step_cases {cfg : Config} {e : ℕ × Event} (h : step cfg c e = some c') :
    Quiet c c' ∨
      ∃ k i env op w pc, e = (k, .resume i env) ∧ Calls cfg c c' (k, i) env op w pc := by
  obtain ⟨k, e⟩ := e
  obtain ⟨inst, hinst, h⟩ := Option.bind_eq_some_iff.1 h
  obtain ⟨s, hs, rfl⟩ := Option.map_eq_some_iff.1 h
  have hk := (List.getElem?_eq_some_iff.1 hinst).1
  -- the requests on the instance that moves, and those on the others
  have hself : ∀ i, op? ⟨s.world, c.instances.set k ⟨s.queue, s.ops⟩⟩ (k, i) = s.ops[i]? :=
    fun i => by rw [op?, List.getElem?_set_self hk, Option.bind_some]
  have hold : ∀ i, c.op? (k, i) = inst.ops[i]? := fun i => op?_of_instance hinst
  have hne : ∀ q : ℕ × ℕ, q.1 ≠ k →
      op? ⟨s.world, c.instances.set k ⟨s.queue, s.ops⟩⟩ q = c.op? q := by
    intro q hq
    rw [op?, op?, List.getElem?_set_ne (Ne.symm hq)]
  rcases step_quiet_or_calls hs with hq | ⟨i, env, op, w, pc, rfl, hc⟩
  · refine Or.inl ⟨hq.world, ?_, ?_⟩
    · rintro ⟨k', i⟩ op hop
      by_cases hk' : k' = k
      · subst hk'
        rw [hself] at hop
        rw [hold]
        exact (hq.old_or_idle i op hop).imp_right And.left
      · rw [hne _ hk'] at hop
        exact Or.inl hop
    · rintro ⟨k', i⟩ op hop
      by_cases hk' : k' = k
      · subst hk'
        rw [hold] at hop
        rw [hself]
        exact hq.kept i op hop
      · rw [hne _ hk']
        exact Or.inl hop
  · refine Or.inr ⟨k, i, env, op, w, pc, rfl, ?_⟩
    refine ⟨(hold i).trans hc.op_eq, hc.advance, hc.world, (hself i).trans hc.ops_self, ?_⟩
    rintro ⟨k', j⟩ hj
    by_cases hk' : k' = k
    · subst hk'
      have hji : j ≠ i := fun heq => hj (heq ▸ rfl)
      rw [hself, hold, hc.ops, List.getElem?_set_ne hji.symm]
      rfl
    · exact hne _ hk'

theorem pc?_of_op? (h : c.op? p = some op) : c.pc? p = some op.pc := by
  rw [pc?, h, Option.map_some]

/-- The request at a place after a call is the one that made it, or as it was. -/
theorem Calls.op_cases {cfg : Config} {env : Env} {op op' : Op} {w : World} {pc : Pc}
    {q : ℕ × ℕ} (h : Calls cfg c c' p env op w pc) (hop : c'.op? q = some op') :
    (q = p ∧ op' = { op with pc := pc }) ∨ (q ≠ p ∧ c.op? q = some op') := by
  by_cases hq : q = p
  · subst hq
    exact Or.inl ⟨rfl, Option.some.inj (hop.symm.trans h.op_self)⟩
  · exact Or.inr ⟨hq, (h.op_ne q hq).symm.trans hop⟩

end Cluster

end ProtostarNest.Knowledge
