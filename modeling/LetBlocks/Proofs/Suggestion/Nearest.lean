import LetBlocks.Proofs.Suggestion.EditDistance

/-!
Candidates are weighed one after another, and a candidate stays the best until a nearer one
comes. Those whose length alone puts them beyond the limit are passed over. None of them could
have become the best, because a distance is at least the difference of the lengths, and nothing
becomes the best unless it is within the limit.
-/

namespace LetBlocks.Suggestion

def measure (input : Text) (best : Best) (candidate : Text) : Best :=
  if distance input candidate < best.distance then
    { candidate, distance := distance input candidate }
  else best

def nearestMeasured (input : Text) (candidates : List Text) (limit : UInt64) : Text :=
  if input = [] then [] else
    (candidates.foldl (measure input) { distance := (limit + 1).toNat }).candidate

/-- Of the candidates that are nearest to `input`, `c` comes first. -/
def IsFirstNearest (input : Text) (candidates : List Text) (c : Text) : Prop :=
  ∃ before after, candidates = before ++ c :: after ∧
    (∀ d ∈ before, distance input c < distance input d) ∧
    ∀ d ∈ after, distance input c ≤ distance input d

/-! ### Passing over by length -/

/-- The successor of a limit wraps to zero, or it is the next number. -/
theorem toNat_limit_add_one (limit : UInt64) :
    (limit + 1).toNat = if limit.toNat < UInt64.size - 1 then limit.toNat + 1 else 0 := by
  have hlt := limit.toNat_lt_size
  rw [UInt64.toNat_add, UInt64.toNat_one]
  split_ifs with h
  · exact Nat.mod_eq_of_lt (Nat.add_lt_of_lt_sub h)
  · have hmax : limit.toNat + 1 = UInt64.size := by omega
    rw [hmax]
    exact Nat.mod_self _

theorem measure_distance_le (input : Text) (best : Best) (c : Text) :
    (measure input best c).distance ≤ best.distance := by
  unfold measure
  split_ifs with h
  · exact Nat.le_of_lt h
  · exact Nat.le_refl _

theorem weigh_eq_measure (input : Text) (limit : UInt64) {best : Best}
    (hbest : best.distance ≤ limit.toNat + 1) (c : Text) :
    weigh input limit best c = measure input best c := by
  rw [weigh]
  split_ifs with hgap
  · -- a candidate that is passed over is not nearer than the best
    have hdistance := gap_le_distance input c
    rw [measure, if_neg (by omega)]
  · rfl

theorem foldl_weigh_eq (input : Text) (limit : UInt64) (candidates : List Text) {best : Best}
    (hbest : best.distance ≤ limit.toNat + 1) :
    candidates.foldl (weigh input limit) best = candidates.foldl (measure input) best := by
  induction candidates generalizing best with
  | nil => rfl
  | cons c candidates ih =>
      rw [List.foldl_cons, List.foldl_cons, weigh_eq_measure input limit hbest]
      exact ih (Nat.le_trans (measure_distance_le input best c) hbest)

theorem nearest_eq_nearestMeasured (input : Text) (candidates : List Text) (limit : UInt64) :
    nearest input candidates limit = nearestMeasured input candidates limit := by
  have hstart : (limit + 1).toNat ≤ limit.toNat + 1 := by
    rw [toNat_limit_add_one]
    split_ifs <;> omega
  rw [nearest, nearestMeasured, foldl_weigh_eq input limit candidates hstart]

/-! ### The best so far -/

/-- After `seen` the best is the first of the nearest candidates among them, if one of them is
nearer than `start`, and there is none otherwise. -/
def Tracks (input : Text) (start : Nat) (seen : List Text) (best : Best) : Prop :=
  (best = { distance := start } ∧ ∀ c ∈ seen, start ≤ distance input c) ∨
    (best.distance = distance input best.candidate ∧ best.distance < start ∧
      IsFirstNearest input seen best.candidate)

theorem IsFirstNearest.le {input : Text} {candidates : List Text} {c : Text}
    (h : IsFirstNearest input candidates c) :
    ∀ d ∈ candidates, distance input c ≤ distance input d := by
  obtain ⟨before, after, rfl, hbefore, hafter⟩ := h
  rw [List.forall_mem_append, List.forall_mem_cons]
  exact ⟨fun d hd => Nat.le_of_lt (hbefore d hd), Nat.le_refl _, hafter⟩

theorem IsFirstNearest.snoc {input : Text} {candidates : List Text} {c d : Text}
    (h : IsFirstNearest input candidates c) (hd : distance input c ≤ distance input d) :
    IsFirstNearest input (candidates ++ [d]) c := by
  obtain ⟨before, after, rfl, hbefore, hafter⟩ := h
  refine ⟨before, after ++ [d], by simp, hbefore, ?_⟩
  rw [List.forall_mem_append, List.forall_mem_singleton]
  exact ⟨hafter, hd⟩

theorem isFirstNearest_concat {input : Text} {candidates : List Text} {d : Text}
    (h : ∀ c ∈ candidates, distance input d < distance input c) :
    IsFirstNearest input (candidates ++ [d]) d :=
  ⟨candidates, [], rfl, h, List.forall_mem_nil _⟩

theorem Tracks.measure {input : Text} {start : Nat} {seen : List Text} {best : Best}
    (h : Tracks input start seen best) (c : Text) :
    Tracks input start (seen ++ [c]) (measure input best c) := by
  unfold Suggestion.measure
  rcases h with ⟨rfl, hfar⟩ | ⟨hdistance, hstart, hfirst⟩
  · split_ifs with hnear
    · exact .inr ⟨rfl, hnear,
        isFirstNearest_concat fun d hd => Nat.lt_of_lt_of_le hnear (hfar d hd)⟩
    · refine .inl ⟨rfl, ?_⟩
      rw [List.forall_mem_append, List.forall_mem_singleton]
      exact ⟨hfar, Nat.le_of_not_lt hnear⟩
  · split_ifs with hnear
    · refine .inr ⟨rfl, Nat.lt_trans hnear hstart, isFirstNearest_concat fun d hd => ?_⟩
      exact Nat.lt_of_lt_of_le hnear (hdistance ▸ hfirst.le d hd)
    · exact .inr ⟨hdistance, hstart, hfirst.snoc (hdistance ▸ Nat.le_of_not_lt hnear)⟩

theorem Tracks.foldl_measure {input : Text} {start : Nat} {seen : List Text} {best : Best}
    (h : Tracks input start seen best) (candidates : List Text) :
    Tracks input start (seen ++ candidates)
      (candidates.foldl (Suggestion.measure input) best) := by
  induction candidates generalizing seen best with
  | nil => rwa [List.append_nil]
  | cons c candidates ih => simpa using ih (h.measure c)

theorem tracks_nearest {input : Text} (hinput : input ≠ []) (candidates : List Text)
    {limit : UInt64} (hlimit : limit.toNat < UInt64.size - 1) :
    ∃ best, best.candidate = nearest input candidates limit ∧
      Tracks input (limit.toNat + 1) candidates best := by
  have hstart : Tracks input (limit.toNat + 1) [] { distance := limit.toNat + 1 } :=
    .inl ⟨rfl, List.forall_mem_nil _⟩
  refine ⟨_, ?_, hstart.foldl_measure candidates⟩
  rw [nearest_eq_nearestMeasured, nearestMeasured, if_neg hinput, toNat_limit_add_one,
    if_pos hlimit]

/-- The suggestion is the first of the nearest candidates, if one of them is within the limit,
and there is none otherwise; this holds for all limits but the largest, whose successor is
zero. For all limits it is the one that is found when no candidate is passed over for its
length. -/
theorem nearest_isFirstNearest (input : Text) (candidates : List Text) (limit : UInt64) :
    (input ≠ [] → limit.toNat < UInt64.size - 1 →
      ((∃ c ∈ candidates, distance input c ≤ limit.toNat) →
        IsFirstNearest input candidates (nearest input candidates limit)) ∧
      ((∀ c ∈ candidates, limit.toNat < distance input c) →
        nearest input candidates limit = [])) ∧
      nearest input candidates limit = nearestMeasured input candidates limit := by
  refine ⟨fun hinput hlimit => ?_, nearest_eq_nearestMeasured input candidates limit⟩
  obtain ⟨best, hbest, ⟨rfl, hfar⟩ | ⟨hdistance, hstart, hfirst⟩⟩ :=
    tracks_nearest hinput candidates hlimit
  · refine ⟨fun ⟨c, hc, hnear⟩ => ?_, fun _ => hbest.symm⟩
    have hc := hfar c hc
    omega
  · rw [← hbest]
    refine ⟨fun _ => hfirst, fun hall => ?_⟩
    obtain ⟨before, after, hcandidates, -⟩ := hfirst
    have hmem : best.candidate ∈ candidates := by
      rw [hcandidates]
      exact List.mem_append_right _ List.mem_cons_self
    have hlt := hall _ hmem
    omega

/-- The last three candidates are equally near, and the first one is too long to be
measured. -/
theorem nearest_isFirstNearest_tie :
    let input := utf8 "hlep"
    let candidates := [utf8 "compile", utf8 "Help", utf8 "help", utf8 "hl"]
    (input ≠ [] ∧ (2 : UInt64).toNat < UInt64.size - 1 ∧
      ∃ c ∈ candidates, distance input c ≤ (2 : UInt64).toNat) ∧
      IsFirstNearest input candidates (nearest input candidates 2) ∧
      nearest input candidates 2 = utf8 "Help" ∧
      nearest input candidates 2 = nearestMeasured input candidates 2 := by
  intro input candidates
  have hinput : input ≠ [] := by decide +kernel
  have hlimit : (2 : UInt64).toNat < UInt64.size - 1 := by decide +kernel
  have hnear : ∃ c ∈ candidates, distance input c ≤ (2 : UInt64).toNat :=
    ⟨utf8 "Help", by decide +kernel, by decide +kernel⟩
  obtain ⟨hfirst, hmeasured⟩ := nearest_isFirstNearest input candidates 2
  exact ⟨⟨hinput, hlimit, hnear⟩, (hfirst hinput hlimit).1 hnear, by decide +kernel, hmeasured⟩

end LetBlocks.Suggestion
