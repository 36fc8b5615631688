import LetBlocks.Suggestion
import Mathlib.Order.Bounds.Basic
import Mathlib.Order.MinMax
import Mathlib.Tactic.Common

/-!
A suggestion's distance is computed a row at a time, without regard to the case of ASCII
letters. It is the least number of edits that lead from one text to the other. Between the two
stands `cost`, which takes both texts apart from the front: the edits can be read off its
recursion, one edit changes it by at most one, and a row holds the costs of beginnings that are
read backwards. That costs nothing more, because edits can be made backwards as well.
-/

namespace LetBlocks

def Text.lower (text : Text) : Text := text.map Byte.toLower

theorem Text.lower_cons (b : Byte) (text : Text) :
    Text.lower (b :: text) = b.toLower :: Text.lower text := rfl

namespace Suggestion

/-! ### Edits -/

inductive Edit : Text → Text → Prop
  | insert (front : Text) (b : Byte) (back : Text) : Edit (front ++ back) (front ++ b :: back)
  | delete (front : Text) (b : Byte) (back : Text) : Edit (front ++ b :: back) (front ++ back)
  | replace (front : Text) (a b : Byte) (back : Text) :
      Edit (front ++ a :: back) (front ++ b :: back)

/-- So many edits, one after another, lead from one text to another. -/
inductive Edits : Nat → Text → Text → Prop
  | none (s : Text) : Edits 0 s s
  | more {n : Nat} {s t u : Text} (hfirst : Edit s t) (hmore : Edits n t u) : Edits (n + 1) s u

namespace Edit

variable {s t : Text}

theorem cons (a : Byte) (h : Edit s t) : Edit (a :: s) (a :: t) := by
  cases h with
  | insert front b back => exact insert (a :: front) b back
  | delete front b back => exact delete (a :: front) b back
  | replace front b c back => exact replace (a :: front) b c back

theorem reverse (h : Edit s t) : Edit s.reverse t.reverse := by
  cases h with
  | insert front b back => simpa using insert back.reverse b front.reverse
  | delete front b back => simpa using delete back.reverse b front.reverse
  | replace front a b back => simpa using replace back.reverse a b front.reverse

theorem symm (h : Edit s t) : Edit t s := by
  cases h with
  | insert front b back => exact delete front b back
  | delete front b back => exact insert front b back
  | replace front a b back => exact replace front b a back

theorem length_le (h : Edit s t) : s.length ≤ t.length + 1 ∧ t.length ≤ s.length + 1 := by
  cases h <;> simp only [List.length_append, List.length_cons] <;> omega

end Edit

namespace Edits

variable {m n : Nat} {s t u : Text}

theorem cons (a : Byte) (h : Edits n s t) : Edits n (a :: s) (a :: t) := by
  induction h with
  | none s => exact none (a :: s)
  | more hfirst _ ih => exact more (hfirst.cons a) ih

theorem reverse (h : Edits n s t) : Edits n s.reverse t.reverse := by
  induction h with
  | none s => exact none s.reverse
  | more hfirst _ ih => exact more hfirst.reverse ih

theorem trans (h : Edits m s t) (h' : Edits n t u) : Edits (m + n) s u := by
  induction h with
  | none s => rwa [Nat.zero_add]
  | more hfirst _ ih =>
      rw [Nat.succ_add]
      exact more hfirst (ih h')

theorem symm (h : Edits n s t) : Edits n t s := by
  induction h with
  | none s => exact none s
  | more hfirst _ ih => exact ih.trans (more hfirst.symm (none _))

theorem length_le (h : Edits n s t) : s.length ≤ t.length + n ∧ t.length ≤ s.length + n := by
  induction h with
  | none s => exact ⟨Nat.le_refl _, Nat.le_refl _⟩
  | more hfirst _ ih =>
      have hlength := hfirst.length_le
      omega

theorem eq_of_zero (h : Edits 0 s t) : s = t := by
  cases h
  rfl

theorem nil_left (t : Text) : Edits t.length [] t := by
  induction t with
  | nil => exact none []
  | cons b t ih => exact more (.insert [] b []) (ih.cons b)

end Edits

/-! ### The cost of a text against another -/

/-- The distance of two texts: their first bytes are taken off, one of them or both, in the
cheapest way. -/
def cost : Text → Text → Nat
  | [], t => t.length
  | a :: s, [] => (a :: s).length
  | a :: s, b :: t =>
    min (min (cost s (b :: t) + 1) (cost (a :: s) t + 1)) (cost s t + if a = b then 0 else 1)
termination_by s t => s.length + t.length

@[simp] theorem cost_nil_left (t : Text) : cost [] t = t.length := by rw [cost]

@[simp] theorem cost_nil_right (s : Text) : cost s [] = s.length := by
  cases s <;> rw [cost]

theorem cost_cons_cons (a b : Byte) (s t : Text) :
    cost (a :: s) (b :: t) =
      min (min (cost s (b :: t) + 1) (cost (a :: s) t + 1))
        (cost s t + if a = b then 0 else 1) := by
  rw [cost]

theorem cost_cons_left_le (a : Byte) (s t : Text) : cost (a :: s) t ≤ cost s t + 1 := by
  cases t with
  | nil => simp
  | cons b t =>
      rw [cost_cons_cons]
      omega

theorem cost_cons_right_le (b : Byte) (s t : Text) : cost s (b :: t) ≤ cost s t + 1 := by
  cases s with
  | nil => simp
  | cons a s =>
      rw [cost_cons_cons]
      omega

theorem cost_self (s : Text) : cost s s = 0 := by
  induction s with
  | nil => simp
  | cons a s ih => simp [cost_cons_cons, ih]

/-- The edits can be read off the recursion. -/
theorem edits_cost (s t : Text) : Edits (cost s t) s t := by
  fun_induction cost s t with
  | case1 t => exact Edits.nil_left t
  | case2 a s => exact (Edits.nil_left (a :: s)).symm
  | case3 a s b t hdelete hinsert hboth =>
      rcases min_choice (min (cost s (b :: t) + 1) (cost (a :: s) t + 1))
        (cost s t + if a = b then 0 else 1) with h | h
      · rw [h]
        rcases min_choice (cost s (b :: t) + 1) (cost (a :: s) t + 1) with h | h
        · rw [h]
          exact .more (.delete [] a s) hdelete
        · rw [h]
          exact .more (.insert [] b (a :: s)) (hinsert.cons b)
      · rw [h]
        split_ifs with hab
        · exact hab ▸ hboth.cons a
        · exact .more (.replace [] a b s) (hboth.cons b)

/-! ### One edit -/

/-- What one edit changes in the cost of a text, it changes behind any other bytes. -/
theorem cost_append_le {s s' : Text} (h : ∀ u, cost s u ≤ cost s' u + 1) (front t : Text) :
    cost (front ++ s) t ≤ cost (front ++ s') t + 1 := by
  induction front generalizing t with
  | nil => exact h t
  | cons a front ihfront =>
      induction t with
      | nil =>
          have hrest := ihfront []
          rw [cost_nil_right, cost_nil_right] at hrest ⊢
          exact Nat.succ_le_succ hrest
      | cons b t iht =>
          have hdelete := ihfront (b :: t)
          have hboth := ihfront t
          rw [List.cons_append, List.cons_append] at iht ⊢
          rw [cost_cons_cons, cost_cons_cons]
          omega

theorem cost_le_cost_cons (b : Byte) (s t : Text) : cost s t ≤ cost (b :: s) t + 1 := by
  induction t with
  | nil =>
      rw [cost_nil_right, cost_nil_right, List.length_cons]
      omega
  | cons c t ih =>
      have hright := cost_cons_right_le c s t
      rw [cost_cons_cons]
      omega

theorem cost_replace_le (a b : Byte) (s t : Text) : cost (a :: s) t ≤ cost (b :: s) t + 1 := by
  induction t with
  | nil =>
      rw [cost_nil_right, cost_nil_right]
      exact Nat.le_succ _
  | cons c t ih =>
      rw [cost_cons_cons, cost_cons_cons]
      split_ifs <;> omega

theorem Edit.cost_le {s s' : Text} (h : Edit s s') (t : Text) : cost s t ≤ cost s' t + 1 := by
  cases h with
  | insert front b back => exact cost_append_le (cost_le_cost_cons b back) front t
  | delete front b back => exact cost_append_le (cost_cons_left_le b back) front t
  | replace front a b back => exact cost_append_le (cost_replace_le a b back) front t

theorem Edits.cost_le {n : Nat} {s t : Text} (h : Edits n s t) : cost s t ≤ n := by
  induction h with
  | none s => exact Nat.le_of_eq (cost_self s)
  | more hfirst _ ih => exact Nat.le_trans (hfirst.cost_le _) (Nat.succ_le_succ ih)

theorem cost_reverse (s t : Text) : cost s.reverse t.reverse = cost s t := by
  apply Nat.le_antisymm
  · exact (edits_cost s t).reverse.cost_le
  · simpa using (edits_cost s.reverse t.reverse).reverse.cost_le

/-! ### Rows -/

/-- The costs of `p` against `q` and, one after another, against `q` with the bytes of a text
put before it. -/
def costs (p q : Text) : Text → List Nat
  | [] => [cost p q]
  | b :: text => cost p q :: costs p (b :: q) text

theorem cons_tail_costs (p q text : Text) :
    cost p q :: (costs p q text).tail = costs p q text := by
  cases text <;> rfl

theorem costs_nil_left (q text : Text) :
    costs [] q text = List.range' q.length (text.length + 1) := by
  induction text generalizing q with
  | nil => simp [costs]
  | cons b text ih => simp [costs, ih, List.range'_succ]

theorem getLast?_costs (p q text : Text) :
    (costs p q text).getLast? = some (cost p (text.reverse ++ q)) := by
  induction text generalizing q with
  | nil => simp [costs]
  | cons b text ih => simp [costs, List.getLast?_cons, ih]

theorem rowFrom_costs (a : Byte) (p q text : Text) :
    cost (a.toLower :: p) q ::
      rowFrom a (cost (a.toLower :: p) q) (cost p q) text (costs p q text.lower).tail =
      costs (a.toLower :: p) q text.lower := by
  induction text generalizing q with
  | nil => rfl
  | cons b text ih =>
      rw [Text.lower_cons, costs, costs, List.tail_cons, ← cons_tail_costs p, rowFrom,
        ← cost_cons_cons, ih]

/-- A row of the computation holds the costs of the bytes read so far against all beginnings of
the other text. -/
theorem nextRow_costs (a : Byte) (p text : Text) :
    nextRow text (costs p [] text.lower) a = costs (a.toLower :: p) [] text.lower := by
  have hnext : cost p [] + 1 = cost (a.toLower :: p) [] := by
    rw [cost_nil_right, cost_nil_right, List.length_cons]
  rw [← cons_tail_costs, nextRow, hnext, rowFrom_costs]

theorem foldl_nextRow_costs (p s text : Text) :
    s.foldl (nextRow text) (costs p [] text.lower) =
      costs (s.lower.reverse ++ p) [] text.lower := by
  induction s generalizing p with
  | nil => rfl
  | cons a s ih =>
      rw [List.foldl_cons, nextRow_costs, ih]
      simp [Text.lower]

theorem distance_eq_cost (s t : Text) : distance s t = cost s.lower t.lower := by
  have hstart : List.range (t.length + 1) = costs [] [] t.lower := by
    rw [costs_nil_left, List.range_eq_range', Text.lower, List.length_map, List.length_nil]
  rw [distance, hstart, foldl_nextRow_costs, getLast?_costs, List.append_nil, List.append_nil,
    Option.getD_some, cost_reverse]

/-! ### The distance -/

theorem edits_distance (s t : Text) : Edits (distance s t) s.lower t.lower := by
  rw [distance_eq_cost]
  exact edits_cost _ _

theorem distance_le {n : Nat} {s t : Text} (h : Edits n s.lower t.lower) :
    distance s t ≤ n := by
  rw [distance_eq_cost]
  exact h.cost_le

theorem distance_comm (s t : Text) : distance s t = distance t s :=
  Nat.le_antisymm (distance_le (edits_distance t s).symm)
    (distance_le (edits_distance s t).symm)

theorem distance_eq_zero_iff {s t : Text} : distance s t = 0 ↔ s.lower = t.lower := by
  constructor
  · intro h
    have hedits := edits_distance s t
    rw [h] at hedits
    exact hedits.eq_of_zero
  · intro h
    exact Nat.le_zero.1 (distance_le (h ▸ Edits.none s.lower))

theorem gap_le_distance (s t : Text) : gap s.length t.length ≤ distance s t := by
  have hlength := (edits_distance s t).length_le
  rw [Text.lower, Text.lower, List.length_map, List.length_map] at hlength
  rw [gap]
  omega

/-- The distance is the least number of edits that lead from one text to the other, both with
their ASCII capitals made small. So it is a distance: the same both ways, zero for texts that
differ in case at most, no longer than any detour, and no less than the difference of the
lengths. -/
theorem distance_isLeast_edits (s t u : Text) :
    IsLeast {n | Edits n s.lower t.lower} (distance s t) ∧ distance s t = distance t s ∧
      (distance s t = 0 ↔ s.lower = t.lower) ∧ distance s u ≤ distance s t + distance t u ∧
      gap s.length t.length ≤ distance s t :=
  ⟨⟨edits_distance s t, fun _ h => distance_le h⟩, distance_comm s t, distance_eq_zero_iff,
    distance_le ((edits_distance s t).trans (edits_distance t u)), gap_le_distance s t⟩

end Suggestion

end LetBlocks
