import ShivaProtocol.Library.LTS

/-!
# Observers of a transition system

A machine reads inputs one after the other, and gives an output for each.  An observer of a
transition system sees some of its actions as inputs of a machine and part of its state as the
state of the machine; an action it does not see must not change that part, as long as the action
is one of those that may be unseen.  The outputs of the machine along a run are then determined by
the inputs seen (`Observer.observe_eq`), so two runs with the same inputs, whatever unseen
actions they take in between, give the same outputs (`Observer.noninterference`).
-/

universe u v w x y

/-- A machine with states `L`, inputs `β` and outputs `γ`. -/
structure Machine (L : Type u) (β : Type v) (γ : Type w) where
  next : L → β → L
  output : L → β → γ

/-- The outputs of a machine for a list of inputs. -/
def Machine.outputs {L : Type u} {β : Type v} {γ : Type w} (m : Machine L β γ) : L → List β → List γ
  | _, [] => []
  | l, b :: bs => m.output l b :: m.outputs (m.next l b) bs

/-- An observer of a system: the inputs it sees, the part of the state it sees, and the machine it
takes the system for.  An action without input may be taken if it is `silent`. -/
structure Observer {σ : Type x} {α : Type y} (M : LTS σ α) (L : Type u) (β : Type v)
    (γ : Type w) where
  machine : Machine L β γ
  view : σ → L
  input : α → Option β
  silent : α → Prop
  seen : ∀ {s a b t}, input a = some b → M.step s a = some t → view t = machine.next (view s) b
  unseen : ∀ {s a t}, input a = none → silent a → M.step s a = some t → view t = view s

namespace Observer

variable {σ : Type x} {α : Type y} {M : LTS σ α} {L : Type u} {β : Type v} {γ : Type w}
  (F : Observer M L β γ)

/-- The outputs along a run: at each action with an input, the output for that input in the state
the action is taken in. -/
def observe : σ → List α → List γ
  | _, [] => []
  | s, a :: as =>
      ((F.input a).map (F.machine.output (F.view s))).toList
        ++ ((M.step s a).map fun t => observe t as).getD []

/-- Every action without input is silent. -/
def Quiet (as : List α) : Prop :=
  ∀ a ∈ as, F.input a = none → F.silent a

variable {F}

/-- The outputs along a run are those of the machine for the inputs seen. -/
theorem observe_eq {as : List α} {s u : σ} (hquiet : F.Quiet as) (h : M.run s as = some u) :
  F.observe s as = F.machine.outputs (F.view s) (as.filterMap F.input)
  := by
  induction as generalizing s with
  | nil => rfl
  | cons a as ih =>
      obtain ⟨t, hst, htu⟩ := LTS.run_cons_some h
      have hrest : F.Quiet as := fun b hb => hquiet b (List.mem_cons_of_mem a hb)
      rw [observe, hst, Option.map_some, Option.getD_some, ih hrest htu]
      cases ha : F.input a with
      | none =>
          rw [List.filterMap_cons_none ha, F.unseen ha (hquiet a List.mem_cons_self ha) hst]
          rfl
      | some b =>
          rw [List.filterMap_cons_some ha, F.seen ha hst]
          rfl

/-- Runs with the same inputs give the same outputs. -/
theorem noninterference {as bs : List α} {s t u v : σ} (hview : F.view s = F.view t)
    (has : F.Quiet as) (hbs : F.Quiet bs) (hs : M.run s as = some u) (ht : M.run t bs = some v)
    (hinputs : as.filterMap F.input = bs.filterMap F.input) :
  F.observe s as = F.observe t bs
  := by rw [observe_eq has hs, observe_eq hbs ht, hview, hinputs]

end Observer
