import LetBlocks.Proofs.Node.Roles

/-!
What the header readers say about the `let`s of plain runs is carried over from the list of
roles to the tree. A run is considered together with everything that follows it in the script,
since that decides what its last `let` starts. The parser has passed no header, and it reports
each attempt at one that fails; so if it has nothing to report, then in the plain runs no
parenthesis follows a `let`, unless that follows a dot.
-/

namespace LetBlocks.Node

open Token Piece

mutual

/-- From no place of a plain run, unless it is after a dot, do the pieces begin as `S` says.
They go on with those of the nodes behind the run, and with `rest` at the end. -/
def FreeRuns (S : List Piece → Prop) : Node → List Piece → Prop
  | plain ts, rest => Free S false (ts.map toPiece) rest
  | letBlock _ body closing _, rest => FreeRunsAll S body (closing.toList.map toPiece ++ rest)

def FreeRunsAll (S : List Piece → Prop) : List Node → List Piece → Prop
  | [], _ => True
  | node :: nodes, rest =>
    node.FreeRuns S ((tokensAll nodes).map toPiece ++ rest) ∧ FreeRunsAll S nodes rest

end

section Readings

variable {S : List Piece → Prop} {Q : Header.Reading → Prop}

/-- The readings of a run exclude `S`, if `S` needs a `let` at which the reading is none of
those. -/
theorem free_of_readings
    (hS : ∀ (t : Token) (ts : List Token), (∀ u ∈ ts, u.isEof = false) →
      S ((t :: ts).map toPiece) → t.kind = .kwLet ∧ ¬ Q (Header.read t ts))
    {dotted : Bool} {ts rest : List Token} (heof : ∀ t ∈ ts ++ rest, t.isEof = false)
    (h : ∀ r ∈ readings dotted (ts.map (·, .plain)) rest, Q r) :
    Free S dotted (ts.map toPiece) (rest.map toPiece) := by
  induction ts generalizing dotted with
  | nil => trivial
  | cons t ts ih =>
      have hmap : (ts.map fun t => (t, Role.plain)).map Prod.fst = ts := by
        simp [Function.comp_def]
      rw [List.cons_append, List.forall_mem_cons] at heof
      rw [List.map_cons, readings, List.forall_mem_append, hmap] at h
      refine ⟨fun hdotted hstarts => ?_, ih heof.2 h.2⟩
      rw [← List.map_append, ← List.map_cons] at hstarts
      obtain ⟨hlet, hnot⟩ := hS t (ts ++ rest) heof.2 hstarts
      rw [if_pos ⟨rfl, hlet, hdotted⟩, List.forall_mem_singleton] at h
      exact hnot h.1

mutual

theorem freeRuns_of_readings
    (hS : ∀ (t : Token) (ts : List Token), (∀ u ∈ ts, u.isEof = false) →
      S ((t :: ts).map toPiece) → t.kind = .kwLet ∧ ¬ Q (Header.read t ts)) :
    ∀ (node : Node) {dotted : Bool} {rest : List Token}, node.WellFormed →
      (dotted = true → node.isPlain = false) →
    (∀ t ∈ node.tokens ++ rest, t.isEof = false) →
    (∀ r ∈ readings dotted node.roles rest, Q r) → node.FreeRuns S (rest.map toPiece)
  | plain ts, dotted, rest, _, hdotted, heof, h => by
      obtain rfl : dotted = false := by
        rw [Bool.eq_false_iff]
        intro htrue
        cases hdotted htrue
      exact free_of_readings hS heof h
  | letBlock header body closing _, dotted, rest, hwell, _, heof, h => by
      obtain ⟨hheader, -, hbody⟩ := hwell
      rw [roles, List.append_assoc, readings_append, List.forall_mem_append,
        map_fst_headerRoles, dotsAll_header hheader, readings_append,
        List.forall_mem_append] at h
      rw [tokens, List.append_assoc, List.append_assoc, List.forall_mem_append] at heof
      have hrest : (closing.toList.map fun t => (t, Role.closing)).map Prod.fst ++ rest =
          closing.toList ++ rest := by
        simp [Function.comp_def]
      rw [hrest] at h
      have hfree := freeRunsAll_of_readings hS body hbody (by simp) heof.2 h.2.1
      rwa [List.map_append] at hfree

theorem freeRunsAll_of_readings
    (hS : ∀ (t : Token) (ts : List Token), (∀ u ∈ ts, u.isEof = false) →
      S ((t :: ts).map toPiece) → t.kind = .kwLet ∧ ¬ Q (Header.read t ts)) :
    ∀ (nodes : List Node) {dotted : Bool} {rest : List Token}, WellFormedAll nodes →
    (dotted = true → ∀ n ∈ nodes.head?, n.isPlain = false) →
    (∀ t ∈ tokensAll nodes ++ rest, t.isEof = false) →
    (∀ r ∈ readings dotted (rolesAll nodes) rest, Q r) → FreeRunsAll S nodes (rest.map toPiece)
  | [], _, _, _, _, _, _ => trivial
  | node :: nodes, dotted, rest, hwell, hdotted, heof, h => by
      obtain ⟨hnode, hopen, hapart, hnodes⟩ := hwell
      rw [rolesAll, readings_append, List.forall_mem_append, map_fst_roles,
        map_fst_rolesAll] at h
      rw [tokensAll, List.append_assoc] at heof
      have hfree :=
        freeRuns_of_readings hS node hnode (fun htrue => hdotted htrue node rfl) heof h.1
      rw [List.map_append] at hfree
      refine ⟨hfree, freeRunsAll_of_readings hS nodes hnodes ?_
        (List.forall_mem_append.1 heof).2 h.2⟩
      -- a plain run is followed by a block, and a block ends with a brace
      intro hdots n hn
      cases node with
      | plain ts => simpa [Apart, isPlain] using hapart n hn
      | letBlock header body closing span =>
          cases closing with
          | none => simp [hopen rfl] at hn
          | some t =>
              obtain ⟨hkind, hlexeme⟩ := closes?_eq_some_iff.1 (hnode.2.1 t rfl).1
              rw [tokens, Option.toList_some,
                dotsAll_append_curly hkind (.inr hlexeme)] at hdots
              cases hdots

end

end Readings

/-! ### Scripts in order -/

mutual

def plainRuns : Node → List (List Token)
  | plain ts => [ts]
  | letBlock _ body _ _ => plainRunsAll body

def plainRunsAll : List Node → List (List Token)
  | [] => []
  | node :: nodes => node.plainRuns ++ plainRunsAll nodes

end

def Settled (nodes : List Node) : Prop :=
  ∀ ts ∈ plainRunsAll nodes, Free TriesBlock false (ts.map toPiece) []

theorem settled_cons {node : Node} {nodes : List Node} :
    Settled (node :: nodes) ↔ Settled [node] ∧ Settled nodes := by
  simp [Settled, plainRunsAll, or_imp, forall_and]

theorem settled_letBlock {header : Header} {body : List Node} {closing : Option Token}
    {span : Span} : Settled [letBlock header body closing span] ↔ Settled body := by
  simp [Settled, plainRunsAll, plainRuns]

mutual

/-- An attempt that the tokens behind a run would complete is no attempt without them. -/
theorem settled_of_freeRuns :
    ∀ (node : Node) {rest : List Piece}, node.FreeRuns TriesBlock rest → Settled [node]
  | plain ts, _, h => by
      simpa [Settled, plainRunsAll, plainRuns] using Free.move h [] rfl
  | letBlock _ body _ _, _, h => settled_letBlock.2 (settled_of_freeRunsAll body h)

theorem settled_of_freeRunsAll :
    ∀ (nodes : List Node) {rest : List Piece}, FreeRunsAll TriesBlock nodes rest →
    Settled nodes
  | [], _, _ => by simp [Settled, plainRunsAll]
  | node :: nodes, _, h =>
      settled_cons.2 ⟨settled_of_freeRuns node h.1, settled_of_freeRunsAll nodes h.2⟩

end

/-- If the parser has nothing to report, there is no attempt at a header in any plain run. -/
theorem settled_parse {tokens : List Token} (h : (parse tokens).diagnostics = []) :
    Settled (parse tokens).nodes := by
  obtain ⟨hwell, htokens⟩ := parse_spec tokens
  obtain ⟨hfaults, hfound⟩ := readings_parse tokens
  rw [h, List.filter_nil] at hfaults
  have habsent : ∀ r ∈ readings false (rolesAll (parse tokens).nodes) [], r = .absent := by
    intro r hr
    cases r with
    | absent => rfl
    | faulty d =>
        exact absurd (List.filterMap_eq_nil_iff.1 hfaults.symm _ hr) (by simp [fault?])
    | found header rest => exact absurd hr (hfound header rest)
  have hS : ∀ (t : Token) (ts : List Token), (∀ u ∈ ts, u.isEof = false) →
      TriesBlock ((t :: ts).map toPiece) → t.kind = .kwLet ∧ ¬ Header.read t ts = .absent := by
    rintro t ts - ⟨hlet, hparen⟩
    refine ⟨hlet, fun hread => ?_⟩
    rw [parenNext_map_toPiece, Header.read_eq_absent_iff.1 hread] at hparen
    cases hparen
  have heof : ∀ t ∈ tokensAll (parse tokens).nodes ++ [], t.isEof = false := by
    rw [List.append_nil, htokens]
    exact isEof_of_mem_takeWhile
  exact settled_of_freeRunsAll _ (freeRunsAll_of_readings hS _ hwell (by simp) heof habsent)

end LetBlocks.Node
