import Mathlib.Logic.Relation
import Mathlib.Data.List.Induction
import Mathlib.Tactic.TypeStar

/-!
# Labelled transition systems

A system `M : LTS σ α` is an initial state together with a step function: for a state and
an action, the next state if the action is enabled.  The state after a list of actions is
`M.run`, and a state is `M.Reachable` if some list of actions leads to it from the initial
state.

An invariant is proved once for a step and holds in every reachable state (`Reachable.invariant`); a
reflexive and transitive relation that every step respects relates the two ends of every run
(`run_rel`); what holds under a condition on the steps holds after every run whose steps all meet it
(`Meets.invariant`).  The steps of a run with the states in which they are taken form its trace, and
invariants of a state may refer to the trace that leads to it (`run_trace_invariant`).  A rank that
some of the actions lower bounds how many of them a run can take before it reaches its goal
(`run_reaches`, `run_rank`).  A simulation of `N` by `M` maps runs of `M` to runs of `N`
(`Simulation.run`), so the invariants of `N` hold in `M`.
-/

universe u v w x

/-- A labelled transition system: an initial state, and for a state and an action the next
state, if the action is enabled. -/
structure LTS (σ : Type u) (α : Type v) where
  init : σ
  step : σ → α → Option σ

namespace LTS

variable {σ : Type u} {α : Type v} {τ : Type w} {β : Type x}

/-- The state reached from `s` by the actions `as`, if each of them is enabled in turn. -/
def run (M : LTS σ α) : σ → List α → Option σ
  | s, [] => some s
  | s, a :: as => (M.step s a).bind fun t => M.run t as

@[simp]
theorem run_nil (M : LTS σ α) (s : σ) :
  M.run s [] = some s
  := rfl

@[simp]
theorem run_cons (M : LTS σ α) (s : σ) (a : α) (as : List α) :
  M.run s (a :: as) = (M.step s a).bind fun t => M.run t as
  := rfl

/-- A run of one action is a step. -/
theorem run_singleton (M : LTS σ α) (s : σ) (a : α) :
  M.run s [a] = M.step s a
  := by
  rw [run_cons]
  cases M.step s a <;> rfl

/-- A run of `as ++ bs` is a run of `as` followed by a run of `bs`. -/
theorem run_append (M : LTS σ α) (s : σ) (as bs : List α) :
  M.run s (as ++ bs) = (M.run s as).bind fun t => M.run t bs
  := by
  induction as generalizing s with
  | nil => rfl
  | cons a as ih =>
      rw [List.cons_append, run_cons, run_cons]
      cases M.step s a with
      | none => rfl
      | some t => apply ih

/-- If `as` leads from `s` to `t` and `bs` from `t` to `u`, then `as ++ bs` leads from `s`
to `u`. -/
theorem run_trans {M : LTS σ α} {s t u : σ} {as bs : List α}
    (has : M.run s as = some t) (hbs : M.run t bs = some u) :
  M.run s (as ++ bs) = some u
  := by
  rw [run_append, has]
  apply hbs

/-- What is left of a run of `as ++ bs` after `as` is a run of `bs`. -/
theorem run_of_append {M : LTS σ α} {s t u : σ} {as bs : List α}
    (h : M.run s (as ++ bs) = some u) (has : M.run s as = some t) :
  M.run t bs = some u
  := by
  rw [run_append, has] at h
  apply h

/-- If no step tells an action from its image, no run tells the actions from their images. -/
theorem run_map {M : LTS σ α} {f : α → α} (hstep : ∀ s a, M.step s (f a) = M.step s a) (s : σ)
    (as : List α) :
  M.run s (as.map f) = M.run s as
  := by
  induction as generalizing s with
  | nil => rfl
  | cons a as ih =>
      rw [List.map_cons, run_cons, run_cons, hstep]
      cases M.step s a with
      | none => rfl
      | some t => apply ih

/-- A nonempty run begins with a step and continues with a run. -/
theorem run_cons_some {M : LTS σ α} {s u : σ} {a : α} {as : List α}
    (h : M.run s (a :: as) = some u) :
  ∃ t, M.step s a = some t ∧ M.run t as = some u
  := Option.bind_eq_some_iff.mp h

/-! ### Invariants -/

/-- A relation that is reflexive, transitive and respected by every step relates the first
state of a run to the last. -/
theorem run_rel {M : LTS σ α} (R : σ → σ → Prop) (hrefl : ∀ s, R s s)
    (htrans : ∀ s t u, R s t → R t u → R s u)
    (hstep : ∀ s a t, M.step s a = some t → R s t) :
  ∀ {as : List α} {s u : σ}, M.run s as = some u → R s u
  | [], s, _, h => by
      obtain rfl := Option.some.inj h
      apply hrefl
  | a :: as, s, u, h => by
      obtain ⟨t, hst, htu⟩ := run_cons_some h
      apply htrans s t u (hstep s a t hst)
      apply run_rel R hrefl htrans hstep htu

/-- A state is reachable if some list of actions leads to it from the initial state. -/
def Reachable (M : LTS σ α) (s : σ) : Prop :=
  ∃ as, M.run M.init as = some s

theorem Reachable.init (M : LTS σ α) :
  M.Reachable M.init
  := ⟨[], rfl⟩

/-- What a run reaches from a reachable state is reachable. -/
theorem Reachable.run {M : LTS σ α} {s t : σ} {as : List α}
    (hs : M.Reachable s) (h : M.run s as = some t) :
  M.Reachable t
  := by
  obtain ⟨bs, hbs⟩ := hs
  use bs ++ as
  apply run_trans hbs h

/-- What a step reaches from a reachable state is reachable. -/
theorem Reachable.step {M : LTS σ α} {s t : σ} {a : α}
    (hs : M.Reachable s) (h : M.step s a = some t) :
  M.Reachable t
  := by
  apply hs.run
  rw [run_singleton, h]

/-- A property that every step preserves is preserved by every run. -/
theorem run_invariant {M : LTS σ α} {P : σ → Prop}
    (hstep : ∀ s a t, P s → M.step s a = some t → P t)
    {as : List α} {s u : σ} (hs : P s) (h : M.run s as = some u) :
  P u
  := by
  apply M.run_rel (fun s t => P s → P t) _ _ _ h hs
  · intro s hs
    apply hs
  · intro s t u hst htu hs
    apply htu (hst hs)
  · intro s a t hst hs
    apply hstep s a t hs hst

/-- A property of the initial state that every step from a reachable state preserves holds in
every reachable state. -/
theorem Reachable.invariant {M : LTS σ α} {P : σ → Prop} (hinit : P M.init)
    (hstep : ∀ s a t, M.Reachable s → P s → M.step s a = some t → P t) {s : σ}
    (hs : M.Reachable s) :
  P s
  := by
  obtain ⟨as, has⟩ := hs
  have hboth : M.Reachable s ∧ P s := by
    apply M.run_invariant (P := fun s => M.Reachable s ∧ P s) _ ⟨Reachable.init M, hinit⟩ has
    rintro s a t ⟨hr, hP⟩ hst
    exact ⟨hr.step hst, hstep s a t hr hP hst⟩
  apply hboth.2

/-- A quantity that every step increases by whether its action meets `p` counts the actions of a
run that meet `p`. -/
theorem run_countP {M : LTS σ α} {f : σ → ℕ} {p : α → Bool}
    (hstep : ∀ s a t, M.step s a = some t → f t = f s + (p a).toNat) :
  ∀ {as : List α} {s u : σ}, M.run s as = some u → f u = f s + as.countP p
  | [], s, u, h => by
      obtain rfl := Option.some.inj h
      rfl
  | a :: as, s, u, h => by
      obtain ⟨t, hst, htu⟩ := run_cons_some h
      rw [run_countP hstep htu, hstep s a t hst, List.countP_cons]
      cases p a with
      | false => rw [Bool.toNat_false, if_neg Bool.false_ne_true, Nat.add_zero, Nat.add_zero]
      | true =>
          rw [Bool.toNat_true, if_pos rfl]
          omega

/-- A list to which every step from a reachable state appends what `g` gives of its action lists,
after a run, what `g` gives of the actions. -/
theorem run_filterMap {M : LTS σ α} {f : σ → List β} {g : α → Option β}
    (hstep : ∀ s a t, M.Reachable s → M.step s a = some t → f t = f s ++ (g a).toList) :
  ∀ {as : List α} {s u : σ}, M.Reachable s → M.run s as = some u → f u = f s ++ as.filterMap g
  | [], s, u, _, h => by
      obtain rfl := Option.some.inj h
      apply (List.append_nil _).symm
  | a :: as, s, u, hs, h => by
      obtain ⟨t, hst, htu⟩ := run_cons_some h
      rw [run_filterMap hstep (hs.step hst) htu, hstep s a t hs hst, List.append_assoc]
      cases hg : g a <;> simp [hg]

/-! ### Traces -/

/-- The steps of a run, each with the state in which it is taken. -/
def trace (M : LTS σ α) : σ → List α → List (σ × α)
  | _, [] => []
  | s, a :: as => (s, a) :: (M.step s a).elim [] fun t => M.trace t as

/-- The trace of `as ++ bs` is the trace of `as` followed by the trace of `bs`. -/
theorem trace_append {M : LTS σ α} :
  ∀ {as : List α} {s t : σ} (bs : List α), M.run s as = some t →
    M.trace s (as ++ bs) = M.trace s as ++ M.trace t bs
  | [], s, t, _, h => by
      obtain rfl := Option.some.inj h
      rfl
  | a :: as, s, u, bs, h => by
      obtain ⟨t, hst, htu⟩ := run_cons_some h
      rw [List.cons_append, trace, trace, hst, Option.elim_some, Option.elim_some,
        trace_append bs htu, List.cons_append]

/-- A step after a run is the last of the trace. -/
theorem trace_concat {M : LTS σ α} {as : List α} {s t : σ} (a : α) (h : M.run s as = some t) :
  M.trace s (as ++ [a]) = M.trace s as ++ [(t, a)]
  := by
  rw [trace_append [a] h, trace]
  cases M.step t a <;> rfl

/-- The trace as a history variable: a property of the empty trace and the initial state that is
preserved when a step extends both holds after every run. -/
theorem run_trace_invariant {M : LTS σ α} {P : List (σ × α) → σ → Prop} (hinit : P [] M.init)
    (hstep : ∀ as s a t, M.run M.init as = some s → P (M.trace M.init as) s →
      M.step s a = some t → P (M.trace M.init as ++ [(s, a)]) t)
    {as : List α} {s : σ} (h : M.run M.init as = some s) :
  P (M.trace M.init as) s
  := by
  induction as using List.reverseRecOn generalizing s with
  | nil =>
      obtain rfl := Option.some.inj h
      apply hinit
  | append_singleton as a ih =>
      rw [run_append] at h
      obtain ⟨t, ht, hs⟩ := Option.bind_eq_some_iff.mp h
      obtain ⟨u, htu, hus⟩ := run_cons_some hs
      obtain rfl := Option.some.inj hus
      rw [trace_concat a ht]
      apply hstep as t a u ht (ih ht) htu

/-! ### Conditions on the steps of a run -/

/-- Every action of the run of `as` from `s` meets the condition `ok` in the state in which it
is taken. -/
def Meets (M : LTS σ α) (ok : σ → α → Prop) : σ → List α → Prop
  | _, [] => True
  | s, a :: as => ok s a ∧ ∀ t, M.step s a = some t → M.Meets ok t as

/-- A property that the steps meeting `ok` preserve is preserved by every run whose steps all
meet `ok`. -/
theorem Meets.invariant {M : LTS σ α} {ok : σ → α → Prop} {P : σ → Prop}
    (hstep : ∀ s a t, ok s a → P s → M.step s a = some t → P t) :
  ∀ {as : List α} {s u : σ}, M.Meets ok s as → P s → M.run s as = some u → P u
  | [], s, u, _, hs, h => by
      obtain rfl := Option.some.inj h
      apply hs
  | a :: as, s, u, ⟨hok, hrest⟩, hs, h => by
      obtain ⟨t, hst, htu⟩ := run_cons_some h
      apply Meets.invariant hstep (hrest t hst) (hstep s a t hok hs hst) htu

/-- A condition that the actions meet in all states is met by all steps of a run. -/
theorem Meets.of_forall {M : LTS σ α} {ok : σ → α → Prop} :
  ∀ {as : List α} {s : σ}, (∀ a ∈ as, ∀ t, ok t a) → M.Meets ok s as
  | [], _, _ => trivial
  | a :: as, s, h => by
      refine ⟨h a List.mem_cons_self s, fun t _ => ?_⟩
      apply Meets.of_forall
      intro b hb
      apply h b (List.mem_cons_of_mem a hb)

/-- If all steps of a run and all steps after it meet `ok`, then so do all steps of the two
together. -/
theorem Meets.append {M : LTS σ α} {ok : σ → α → Prop} :
  ∀ {as bs : List α} {s : σ}, M.Meets ok s as → (∀ t, M.run s as = some t → M.Meets ok t bs) →
    M.Meets ok s (as ++ bs)
  | [], _, s, _, hbs => hbs s rfl
  | a :: as, bs, s, ⟨hok, hrest⟩, hbs => by
      refine ⟨hok, fun t hst => ?_⟩
      apply Meets.append (hrest t hst)
      intro u htu
      apply hbs u
      rw [run_cons, hst]
      apply htu

/-- If all steps of two runs together meet `ok`, then so do those of the first and those of the
second. -/
theorem Meets.of_append {M : LTS σ α} {ok : σ → α → Prop} :
  ∀ {as bs : List α} {s : σ}, M.Meets ok s (as ++ bs) →
    M.Meets ok s as ∧ ∀ t, M.run s as = some t → M.Meets ok t bs
  | [], bs, s, h => by
      constructor
      · trivial
      · intro t ht
        obtain rfl := Option.some.inj ht
        apply h
  | a :: as, bs, s, ⟨hok, hrest⟩ => by
      constructor
      · refine ⟨hok, fun t hst => ?_⟩
        apply (Meets.of_append (hrest t hst)).1
      · intro u hu
        obtain ⟨t, hst, htu⟩ := run_cons_some hu
        apply (Meets.of_append (hrest t hst)).2 u htu

/-- All steps of a run meet `ok` exactly if those of its trace do. -/
theorem meets_iff_trace {M : LTS σ α} {ok : σ → α → Prop} {as : List α} {s : σ} :
  M.Meets ok s as ↔ ∀ x ∈ M.trace s as, ok x.1 x.2
  := by
  induction as generalizing s with
  | nil => simp [Meets, trace]
  | cons a as ih =>
      rw [Meets, trace, List.forall_mem_cons]
      apply and_congr_right
      intro _
      cases M.step s a with
      | none => simp
      | some t => simp [ih]

/-! ### Ranks -/

theorem countP_cons (p : α → Bool) (a : α) (as : List α) :
  (a :: as).countP p = as.countP p + (p a).toNat
  := by
  rw [List.countP_cons]
  cases p a <;> rfl

/-- Suppose that, until a goal is reached, every step lowers a rank by one if its action meets `p`,
and raises it by at most `c`, and only if its action meets `q`.  Then a run either passes through a
state of the goal, or has at most as many actions that meet `p` as the rank of its first state and
`c` for every action that meets `q`.  The invariant `P` may be used on the way. -/
theorem run_reaches {M : LTS σ α} (P goal : σ → Prop) (rank : σ → ℕ) (p q : α → Bool) (c : ℕ)
    {as : List α} (hstep : ∀ s, ∀ a ∈ as, ∀ t, P s → ¬ goal s → M.step s a = some t →
      P t ∧ (goal t ∨ rank t + (p a).toNat ≤ rank s + c * (q a).toNat)) {s u : σ} (hs : P s)
    (h : M.run s as = some u) :
  (∃ bs cs t, as = bs ++ cs ∧ M.run s bs = some t ∧ goal t ∧ M.run t cs = some u)
    ∨ rank u + as.countP p ≤ rank s + c * as.countP q
  := by
  by_cases hgoal : goal s
  · left
    exact ⟨[], as, s, rfl, rfl, hgoal, h⟩
  · induction as generalizing s with
    | nil =>
        obtain rfl := Option.some.inj h
        right
        apply Nat.le_add_right
    | cons a as ih =>
        obtain ⟨t, hst, htu⟩ := run_cons_some h
        obtain ⟨ht, hrank⟩ := hstep s a List.mem_cons_self t hs hgoal hst
        by_cases hreached : goal t
        · left
          refine ⟨[a], as, t, rfl, ?_, hreached, htu⟩
          rw [run_singleton, hst]
        · have hle := hrank.resolve_left hreached
          have hrest := ih (fun s b hb => hstep s b (List.mem_cons_of_mem a hb)) ht htu hreached
          rcases hrest with ⟨bs, cs, v, rfl, hbs, hv, hcs⟩ | hrest
          · left
            refine ⟨a :: bs, cs, v, rfl, ?_, hv, hcs⟩
            rw [run_cons, hst]
            apply hbs
          · right
            rw [countP_cons, countP_cons, Nat.mul_add]
            omega

/-- If moreover no step leaves the goal, then the run ends in the goal unless it has as few actions
that meet `p`. -/
theorem run_rank {M : LTS σ α} (P goal : σ → Prop) (rank : σ → ℕ) (p q : α → Bool) (c : ℕ)
    (hgoal : ∀ s a t, goal s → M.step s a = some t → goal t)
    {as : List α} (hstep : ∀ s, ∀ a ∈ as, ∀ t, P s → M.step s a = some t →
      P t ∧ (goal t ∨ rank t + (p a).toNat ≤ rank s + c * (q a).toNat)) {s u : σ} (hs : P s)
    (h : M.run s as = some u) :
  goal u ∨ rank u + as.countP p ≤ rank s + c * as.countP q
  := by
  have hreaches := M.run_reaches P goal rank p q c (fun s a ha t hs _ => hstep s a ha t hs) hs h
  apply hreaches.imp_left
  rintro ⟨bs, cs, t, rfl, -, ht, htu⟩
  apply M.run_invariant hgoal ht htu

/-! ### Simulations -/

/-- A functional simulation of `N` by `M`: states of `M` are mapped to states of `N`, and an
action of `M` to an action of `N` that does the same, or to none if the state of `N` does not
see it. -/
structure Simulation (M : LTS σ α) (N : LTS τ β) where
  state : σ → τ
  action : α → Option β
  init : state M.init = N.init
  step : ∀ {s a b t}, action a = some b → M.step s a = some t →
    N.step (state s) b = some (state t)
  stutter : ∀ {s a t}, action a = none → M.step s a = some t → state t = state s

/-- A simulation maps a run to the run of the actions it sees. -/
theorem Simulation.run {M : LTS σ α} {N : LTS τ β} (F : Simulation M N) :
  ∀ {as : List α} {s t : σ}, M.run s as = some t →
    N.run (F.state s) (as.filterMap F.action) = some (F.state t)
  | [], s, t, h => by
      obtain rfl := Option.some.inj h
      rfl
  | a :: as, s, u, h => by
      obtain ⟨t, hst, htu⟩ := run_cons_some h
      have ih := Simulation.run F htu
      cases ha : F.action a with
      | none =>
          rw [List.filterMap_cons_none ha, ← F.stutter ha hst]
          apply ih
      | some b =>
          rw [List.filterMap_cons_some ha, run_cons, F.step ha hst]
          apply ih

/-- A simulation maps reachable states to reachable states. -/
theorem Simulation.reachable {M : LTS σ α} {N : LTS τ β} (F : Simulation M N) {s : σ}
    (hs : M.Reachable s) :
  N.Reachable (F.state s)
  := by
  obtain ⟨as, has⟩ := hs
  use as.filterMap F.action
  rw [← F.init]
  apply F.run has

end LTS
