import Mathlib.Data.List.Basic
import ShivaProtocol.Library.LTS

/-!
# Lossy queues

A lossy queue takes elements in at its end and delivers them from its front, and may lose any of the
elements it holds on the way.  It is what remains of a pipeline with several stages if one forgets
where in the pipeline an element is.

Whatever is lost, nothing is delivered that has not been submitted, nothing twice, and nothing out
of order: what has been delivered, followed by what is in flight, is a subsequence of what has been
submitted (`run_sublist`), and the number of the elements missing from it is that of the losses
(`run_length`).  No element is overtaken: after as many deliveries as there were elements up to it,
it is no longer in flight (`run_front`).
-/

universe u

/-- The elements in flight, the oldest first, and those delivered. -/
structure LossyQueue (α : Type u) where
  inFlight : List α
  delivered : List α

/-- An element is submitted; the element at a position is lost; the oldest element is delivered. -/
inductive LossyAction (α : Type u) where
  | submit (x : α)
  | lose (i : ℕ)
  | deliver

variable {α : Type u}

namespace LossyAction

/-- The element that an action submits. -/
def submitted : LossyAction α → Option α
  | .submit x => some x
  | _ => none

/-- Whether an action loses an element. -/
def isLoss : LossyAction α → Bool
  | .lose _ => true
  | _ => false

end LossyAction

namespace LossyQueue

/-- The queue before the first element. -/
def empty (α : Type u) : LossyQueue α where
  inFlight := []
  delivered := []

/-- The state after an action, if it is enabled. -/
def step (s : LossyQueue α) : LossyAction α → Option (LossyQueue α)
  | .submit x => some { s with inFlight := s.inFlight ++ [x] }
  | .lose i =>
      if i < s.inFlight.length then some { s with inFlight := s.inFlight.eraseIdx i } else none
  | .deliver =>
      match s.inFlight with
      | x :: rest => some { inFlight := rest, delivered := s.delivered ++ [x] }
      | [] => none

/-- All elements that have not been lost, the oldest first. -/
def all (s : LossyQueue α) : List α :=
  s.delivered ++ s.inFlight

end LossyQueue

/-- The lossy queue, as a transition system. -/
def lossyQueue (α : Type u) : LTS (LossyQueue α) (LossyAction α) where
  init := LossyQueue.empty α
  step := LossyQueue.step

namespace LossyQueue

/-- What a step can do. -/
inductive Step (s : LossyQueue α) : LossyAction α → LossyQueue α → Prop where
  | submit (x : α) : Step s (.submit x) { s with inFlight := s.inFlight ++ [x] }
  | lose {i : ℕ} : i < s.inFlight.length →
      Step s (.lose i) { s with inFlight := s.inFlight.eraseIdx i }
  | deliver {x : α} {rest : List α} : s.inFlight = x :: rest →
      Step s .deliver { inFlight := rest, delivered := s.delivered ++ [x] }

/-- Every step is one of `Step`. -/
theorem step_cases {s t : LossyQueue α} {a : LossyAction α}
    (h : (lossyQueue α).step s a = some t) :
  Step s a t
  := by
  cases a with
  | submit x =>
      obtain rfl := Option.some.inj h
      apply Step.submit
  | lose i =>
      simp only [lossyQueue, step] at h
      split at h
      · rename_i hlt
        obtain rfl := Option.some.inj h
        apply Step.lose hlt
      · cases h
  | deliver =>
      simp only [lossyQueue, step] at h
      split at h
      · rename_i hcons
        obtain rfl := Option.some.inj h
        apply Step.deliver hcons
      · cases h

/-- A step adds what it submits at the end, and takes away at most one element. -/
theorem step_all {s t : LossyQueue α} {a : LossyAction α}
    (h : (lossyQueue α).step s a = some t) :
  t.all.Sublist (s.all ++ a.submitted.toList)
    ∧ t.all.length + a.isLoss.toNat = s.all.length + a.submitted.toList.length
  := by
  cases step_cases h with
  | submit x =>
      constructor
      · rw [all, all, ← List.append_assoc]
        apply List.Sublist.refl
      · simp only [all, List.length_append]
        rfl
  | @lose i hlt =>
      constructor
      · rw [all, all]
        apply List.Sublist.trans _ (List.sublist_append_left _ _)
        apply (List.eraseIdx_sublist _ i).append_left
      · have hlen := List.length_eraseIdx_add_one hlt
        simp only [all, List.length_append, LossyAction.isLoss, LossyAction.submitted,
          Bool.toNat_true, Option.toList_none, List.length_nil]
        omega
  | @deliver x rest hcons =>
      have hall : s.delivered ++ [x] ++ rest = s.delivered ++ s.inFlight := by
        rw [List.append_assoc, hcons]
        rfl
      simp only [all, hall]
      exact ⟨List.sublist_append_left _ _, rfl⟩

theorem submitted_cons (a : LossyAction α) (as : List (LossyAction α)) :
  (a :: as).filterMap LossyAction.submitted
    = a.submitted.toList ++ as.filterMap LossyAction.submitted
  := by cases ha : a.submitted <;> simp [ha]

section Run

variable {as : List (LossyAction α)} {s t : LossyQueue α}
  (h : (lossyQueue α).run s as = some t)

include h

/-- What has been delivered, followed by what is in flight, is a subsequence of what has been
submitted. -/
theorem run_sublist :
  t.all.Sublist (s.all ++ as.filterMap LossyAction.submitted)
  := by
  induction as generalizing s with
  | nil =>
      obtain rfl := Option.some.inj h
      apply List.sublist_append_left
  | cons a as ih =>
      obtain ⟨u, hsu, hut⟩ := LTS.run_cons_some h
      apply (ih hut).trans
      rw [submitted_cons, ← List.append_assoc]
      apply (step_all hsu).1.append_right

/-- The elements submitted that have not been lost are those delivered and those in flight. -/
theorem run_length :
  t.all.length + as.countP LossyAction.isLoss
    = s.all.length + (as.filterMap LossyAction.submitted).length
  := by
  induction as generalizing s with
  | nil =>
      obtain rfl := Option.some.inj h
      rfl
  | cons a as ih =>
      obtain ⟨u, hsu, hut⟩ := LTS.run_cons_some h
      have hstep := (step_all hsu).2
      have hrest := ih hut
      rw [submitted_cons, List.length_append, LTS.countP_cons]
      omega

end Run

/-! ### The elements in front -/

/-- A step takes nothing past the elements in front: what is left of these stays in front, and each
delivery takes one of them as long as there are any. -/
theorem step_front {s t : LossyQueue α} {a : LossyAction α}
    (h : (lossyQueue α).step s a = some t) {front back : List α} (hs : s.inFlight = front ++ back) :
  ∃ front' back', t.inFlight = front' ++ back' ∧ back'.Sublist (back ++ a.submitted.toList)
    ∧ s.delivered.length ≤ t.delivered.length
    ∧ front'.length ≤ front.length + s.delivered.length - t.delivered.length
  := by
  cases step_cases h with
  | submit x =>
      refine ⟨front, back ++ [x], ?_, List.Sublist.refl _, Nat.le_refl _, ?_⟩
      · rw [← List.append_assoc, ← hs]
      · apply Nat.le_of_eq (Nat.add_sub_cancel _ _).symm
  | @lose i _ =>
      rcases Nat.lt_or_ge i front.length with hlt | hge
      · refine ⟨front.eraseIdx i, back, ?_, List.sublist_append_left _ _, Nat.le_refl _, ?_⟩
        · rw [hs, List.eraseIdx_append_of_lt_length hlt]
        · rw [Nat.add_sub_cancel]
          apply (List.eraseIdx_sublist front i).length_le
      · refine ⟨front, back.eraseIdx (i - front.length), ?_, ?_, Nat.le_refl _, ?_⟩
        · rw [hs, List.eraseIdx_append_of_length_le hge]
        · apply (List.eraseIdx_sublist _ _).trans (List.sublist_append_left _ _)
        · apply Nat.le_of_eq (Nat.add_sub_cancel _ _).symm
  | @deliver x rest hcons =>
      have hlength : (s.delivered ++ [x]).length = s.delivered.length + 1 := List.length_append
      have hle : s.delivered.length ≤ (s.delivered ++ [x]).length := Nat.le.intro hlength.symm
      rw [hcons] at hs
      cases front with
      | nil =>
          refine ⟨[], rest, rfl, ?_, hle, Nat.zero_le _⟩
          rw [← List.nil_append back, ← hs]
          apply (List.sublist_cons_self x rest).trans (List.sublist_append_left _ _)
      | cons y front =>
          obtain ⟨-, rfl⟩ := List.cons.inj hs
          refine ⟨front, back, rfl, List.sublist_append_left _ _, hle, ?_⟩
          simp only [hlength, List.length_cons]
          omega

/-- After as many deliveries as there were elements in front, only elements from behind them, and
those submitted since, are in flight. -/
theorem run_front {as : List (LossyAction α)} {s t : LossyQueue α}
    (h : (lossyQueue α).run s as = some t) {front back : List α} (hs : s.inFlight = front ++ back)
    (hdelivered : s.delivered.length + front.length ≤ t.delivered.length) :
  t.inFlight.Sublist (back ++ as.filterMap LossyAction.submitted)
  := by
  suffices hsplit : ∃ front' back', t.inFlight = front' ++ back'
      ∧ back'.Sublist (back ++ as.filterMap LossyAction.submitted)
      ∧ s.delivered.length ≤ t.delivered.length
      ∧ front'.length ≤ front.length + s.delivered.length - t.delivered.length by
    obtain ⟨front', back', ht, hback, -, hfront⟩ := hsplit
    have hnil : front' = [] := List.eq_nil_of_length_eq_zero (by omega)
    rw [ht, hnil]
    apply hback
  clear hdelivered
  induction as generalizing s front back with
  | nil =>
      obtain rfl := Option.some.inj h
      refine ⟨front, back, hs, List.sublist_append_left _ _, Nat.le_refl _, ?_⟩
      apply Nat.le_of_eq (Nat.add_sub_cancel _ _).symm
  | cons a as ih =>
      obtain ⟨u, hsu, hut⟩ := LTS.run_cons_some h
      obtain ⟨front', back', hu, hback, hle, hfront⟩ := step_front hsu hs
      obtain ⟨front'', back'', ht, hback', hle', hfront'⟩ := ih hut hu
      refine ⟨front'', back'', ht, hback'.trans ?_, Nat.le_trans hle hle', ?_⟩
      · rw [submitted_cons, ← List.append_assoc]
        apply hback.append_right
      · omega

end LossyQueue
