import LetBlocks.Proofs.Node.Reports
import LetBlocks.Proofs.Report.Threading

/-!
A header may fail far behind its `let`, after the reader has looked into much of what follows.
Nothing of that is kept: the parser goes on as if the `let` were any other name, but for the
report. So if every `let` of a plain run is made an identifier, the tree stays the same up to
these kinds, and the reports on headers are gone while all others stay. The step lemmas say
that taking names for `let`s (`Progress.named`) commutes with what the parser does.
-/

namespace LetBlocks

namespace Token

def asName (t : Token) : Token := if t.kind = .kwLet then { t with kind := .identifier } else t

variable {t : Token}

theorem asName_of_ne (h : t.kind ≠ .kwLet) : t.asName = t := if_neg h

theorem asName_of_closes? {bracket : Bracket} (h : t.closes? = some bracket) : t.asName = t :=
  asName_of_ne (by simp [(closes?_eq_some_iff.1 h).1])

theorem kind_asName_ne (t : Token) : t.asName.kind ≠ .kwLet := by
  unfold asName
  split
  · simp
  · assumption

@[simp] theorem span_asName (t : Token) : t.asName.span = t.span := by
  unfold asName
  split <;> rfl

/-- A function that does not tell a `let` from an identifier. -/
theorem asName_congr {α : Type} {f : Token → α}
    (h : ∀ t : Token, t.kind = .kwLet → f { t with kind := .identifier } = f t) (t : Token) :
    f t.asName = f t := by
  unfold asName
  split
  · next hlet => exact h t hlet
  · rfl

@[simp] theorem isEof_asName (t : Token) : t.asName.isEof = t.isEof :=
  asName_congr (fun t hlet => by simp [isEof, hlet]) t

@[simp] theorem isTrivia_asName (t : Token) : t.asName.isTrivia = t.isTrivia :=
  asName_congr (fun t hlet => by
    simp [isTrivia, hlet, Kind.isTrivia, Kind.isBlank, Kind.isComment]) t

@[simp] theorem isPunct_asName (t : Token) (text : Text) :
    t.asName.isPunct text = t.isPunct text :=
  asName_congr (f := (·.isPunct text)) (fun t hlet => by rw [isPunct, isPunct, hlet]; rfl) t

@[simp] theorem opens?_asName (t : Token) : t.asName.opens? = t.opens? :=
  asName_congr (fun t hlet => by simp [opens?, hlet]) t

@[simp] theorem closes?_asName (t : Token) : t.asName.closes? = t.closes? :=
  asName_congr (fun t hlet => by simp [closes?, hlet]) t

theorem bracketsAfter_asName (opened : List Bracket) (t : Token) :
    t.asName.bracketsAfter opened = t.bracketsAfter opened := by
  rw [bracketsAfter, bracketsAfter, opens?_asName, closes?_asName]

end Token

namespace Node

open Token

mutual

def named : Node → Node
  | plain ts => plain (ts.map asName)
  | letBlock header body closing span => letBlock header (namedAll body) closing span

def namedAll : List Node → List Node
  | [] => []
  | node :: nodes => node.named :: namedAll nodes

end

/-- The tokens, with names for the `let`s that stand in plain runs of the tree. -/
def withNames (nodes : List Node) (tokens : List Token) : List Token :=
  tokens.mapIdx fun i t => if (plainIndices nodes).contains i then t.asName else t

theorem namedAll_eq_map (nodes : List Node) : namedAll nodes = nodes.map named := by
  induction nodes with
  | nil => rfl
  | cons node nodes ih => rw [namedAll, ih, List.map_cons]

/-! ### What has been read so far -/

def Scope.named (s : Scope) : Scope :=
  { s with nodes := s.nodes.map Node.named, run := s.run.map asName }

def OpenBlock.named (b : OpenBlock) : OpenBlock := { b with outer := b.outer.named }

theorem Scope.flushed_named (s : Scope) : s.named.flushed = s.flushed.map Node.named := by
  unfold Scope.flushed Scope.named
  simp only [List.map_eq_nil_iff]
  split_ifs
  · rfl
  · rw [List.map_cons, Node.named, List.map_reverse]

theorem Scope.toNodes_named (s : Scope) : s.named.toNodes = namedAll s.toNodes := by
  rw [toNodes, flushed_named, namedAll_eq_map, toNodes, List.map_reverse]

namespace Progress

/-- What has been read, had each `let` of a plain run been a name. -/
def named (p : Progress) : Progress where
  scope := p.scope.named
  around := p.around.map OpenBlock.named
  last := p.last.map asName
  journal := ({} : Journal).recordAll (p.journal.toList.filter (!isFault ·))

theorem named_start : named {} = {} := rfl

/-- Reports on headers are left out, and all others stay. -/
theorem named_report_of_isFault {d : Diagnostic} (h : isFault d = true) (p : Progress) :
    named (p.noting [d]) = p.named := by
  have hfiled : isFault d.filed = true := by rwa [isFault, Diagnostic.code_filed]
  simp [named, noting, Journal.recordAll, Journal.toList_record, hfiled]

theorem named_reports_of_not_isFault {ds : List Diagnostic} (h : ∀ d ∈ ds, isFault d = false)
    (p : Progress) : named (p.noting ds) = p.named.noting ds := by
  have hkept : (ds.reverse.map Diagnostic.filed).filter (!isFault ·) =
      ds.reverse.map Diagnostic.filed := by
    rw [List.filter_eq_self]
    intro d hd
    obtain ⟨e, he, rfl⟩ := List.mem_map.1 hd
    rw [isFault, Diagnostic.code_filed, ← isFault, h e (List.mem_reverse.1 he), Bool.not_false]
  simp only [named, noting, Journal.toList_recordAll, List.filter_append, hkept,
    Journal.recordAll_append, Journal.recordAll_map_filed]

/-- Every report that is not on a header is kept. -/
theorem toList_named (p : Progress)
    (h : p.journal.toList.map Diagnostic.filed = p.journal.toList) :
    p.named.journal.toList = p.journal.toList.filter (!isFault ·) := by
  have hfiled : ∀ d ∈ p.journal.toList.filter (!isFault ·), d.filed = d := fun d hd =>
    Diagnostic.filed_of_mem h (List.mem_filter.1 hd).1
  rw [named, Journal.toList_recordAll, Journal.toList_empty, List.nil_append,
    List.map_congr_left hfiled, List.map_id']

theorem afterDot_named (p : Progress) : p.named.afterDot = p.afterDot := by
  unfold afterDot named
  cases p.last with
  | none => rfl
  | some t => simp

theorem append_named (p : Progress) (t : Token) :
    p.named.append t.asName = (p.append t).named := by
  unfold append named
  simp only [isTrivia_asName, apply_ite (Option.map asName), Option.map_some]
  rfl

theorem closeBlock_named (p : Progress) (closing : Option Token) (stop : Location) :
    p.named.closeBlock closing stop = (p.closeBlock closing stop).named := by
  have hnodes := Scope.toNodes_named p.scope
  unfold closeBlock
  cases hp : p.around with
  | nil => simp [named, hp]
  | cons b around =>
      simp only [named, hp, List.map_cons, hnodes]
      rfl

theorem openBlock_named {header : Header}
    (hheader : Header.IsHeader header.tokens header.declarations) (p : Progress) (t : Token) :
    p.named.openBlock t header = (p.openBlock t header).named := by
  -- the last token of a header is a brace, and that is no word
  obtain ⟨more, brace, htokens, hbrace⟩ := hheader.exists_brace
  have hname : brace.asName = brace := asName_of_ne (by simp [(isPunct_iff.1 hbrace).1])
  simp [openBlock, named, OpenBlock.named, Scope.named, ← Scope.flushed_named, htokens, hname]

theorem complaints_named (p : Progress) (t : Token) :
    p.named.complaints t.asName = p.complaints t := by
  cases hcloses : t.closes? with
  | none =>
      rw [complaints, complaints, mismatches_of_closes?_eq_none _ _ hcloses,
        mismatches_of_closes?_eq_none _ _ (by rw [closes?_asName, hcloses])]
      rfl
  | some bracket =>
      rw [asName_of_closes? hcloses]
      simp [complaints, named, Scope.named]

/-- A name is taken in the same way as the `let` that it stands for, and so is every other
token. -/
theorem take_named (p : Progress) (t : Token) : p.named.take t.asName = (p.take t).named := by
  have hkept := isFault_of_mismatches (mismatches_complaints p t)
  have hsame : (p.named.around ≠ [] → t.asName.closes? = some .curly →
      .curly ∈ p.named.scope.brackets) ↔
      (p.around ≠ [] → t.closes? = some .curly → .curly ∈ p.scope.brackets) := by
    simp [named, Scope.named]
  obtain ⟨⟨hnamed, -⟩, ⟨hp, -⟩⟩ | ⟨⟨hnamed, -⟩, ⟨hp, -, hcloses, -⟩⟩ :=
    take_spelled_out_both hsame
  · have hreport := named_reports_of_not_isFault hkept
      { p with scope := { p.scope with brackets := t.bracketsAfter p.scope.brackets } }
    rw [hnamed, hp, ← append_named, complaints_named, bracketsAfter_asName]
    exact congrArg (append · t.asName) hreport.symm
  · have hname := asName_of_closes? hcloses
    have hclose := closeBlock_named (p.noting (p.complaints t)) (some t) t.span.stop
    rw [named_reports_of_not_isFault hkept] at hclose
    rw [complaints_named, hname] at hnamed
    rw [hname, hnamed, hp, hclose]
    simp only [named, Option.map_some, hname]

theorem abandon_named (stop : Location) (p : Progress) (b : OpenBlock) :
    abandon stop p.named b.named = (abandon stop p b).named := by
  have hkept : ∀ d ∈ [b.report], isFault d = false := by
    rw [List.forall_mem_singleton]
    exact (by decide : Header.faultCodes.contains (utf8 "P005") = false)
  have hclose := closeBlock_named (p.noting [b.report]) none stop
  rw [named_reports_of_not_isFault hkept] at hclose
  exact hclose

theorem finish_named (p : Progress) (stop : Location) :
    p.named.finish stop = (p.finish stop).named := by
  have hfold : ∀ (around : List OpenBlock) (q : Progress),
      (around.map OpenBlock.named).foldl (abandon stop) q.named =
        (around.foldl (abandon stop) q).named := by
    intro around
    induction around with
    | nil => exact fun _ => rfl
    | cons b around ih =>
        intro q
        rw [List.map_cons, List.foldl_cons, abandon_named, ih, List.foldl_cons]
  exact hfold p.around p

end Progress

/-! ### The run -/

def Role.naming (x : Token × Role) : Token := if x.2 = .plain then x.1.asName else x.1

theorem map_naming_headerRoles (header : Header) :
    (headerRoles header).map Role.naming = header.tokens := by
  rw [← map_fst_headerRoles header]
  apply List.map_congr_left
  intro x hx
  rw [Role.naming, if_neg (headerRoles_not_plain header x hx)]

namespace Progress

/-- A token that opens no block. The roles that come behind it are those of the rest. -/
theorem run_named_take {p q : Progress} {t : Token} {rest : List Token}
    {next : List (Token × Role)} (hvalid : p.Valid)
    (hroles : q.roles = (p.take t).roles ++ next) (hfst : next.map Prod.fst = rest)
    (hrun : (p.take t).named.run (next.map Role.naming) = q.named) :
    ∃ next, q.roles = p.roles ++ next ∧ next.map Prod.fst = t :: rest ∧
      p.named.run (next.map Role.naming) = q.named := by
  obtain ⟨role, hrole, hplain⟩ := roles_take hvalid t
  have hnaming : Role.naming (t, role) = t.asName := by
    by_cases hkind : t.kind = .punct
    · rw [Role.naming, asName_of_ne (by simp [hkind]), ite_self]
    · rw [Role.naming, if_pos (hplain hkind)]
  refine ⟨(t, role) :: next, ?_, by rw [List.map_cons, hfst], ?_⟩
  · rw [hroles, hrole, List.append_assoc, List.singleton_append]
  · rw [List.map_cons, hnaming, run_of_plain fun h => kind_asName_ne t h.1, take_named, hrun]

/-- The parser on the names: where it has found a header it finds it again, and anything else
it takes as it is. -/
theorem run_named {p : Progress} (hvalid : p.Valid) {ts : List Token}
    (heof : ∀ t ∈ ts, t.isEof = false) :
    ∃ next, (p.run ts).roles = p.roles ++ next ∧ next.map Prod.fst = ts ∧
      p.named.run (next.map Role.naming) = (p.run ts).named := by
  fun_induction Progress.run p ts with
  | case1 p => exact ⟨[], by simp, rfl, by rw [List.map_nil, run]⟩
  | case2 p t rest hstart header rest' hread ih =>
      obtain ⟨hsplit, hheader⟩ :=
        Header.read_sound hread hstart.1 (List.forall_mem_cons.1 heof).2
      rw [hsplit] at heof
      obtain ⟨next, hroles, hfst, hrun⟩ :=
        ih (hvalid.openBlock hheader) (List.forall_mem_append.1 heof).2
      refine ⟨headerRoles header ++ next, ?_, ?_, ?_⟩
      · rw [hroles, roles_openBlock, List.append_assoc]
      · rw [List.map_append, map_fst_headerRoles, hfst, hsplit]
      · obtain ⟨more, hmore⟩ : ∃ more, header.tokens = t :: more :=
          List.head?_eq_some_iff.1 (hheader.head?_eq hsplit)
        have hagain : t :: (more ++ next.map Role.naming) =
            header.tokens ++ next.map Role.naming := by
          rw [hmore, List.cons_append]
        rw [List.map_append, map_naming_headerRoles, ← hagain,
          run_of_found hstart.1 (by rw [afterDot_named, hstart.2])
            (Header.read_complete hheader hagain),
          openBlock_named hheader, hrun]
  | case3 p t rest hstart d hread ih =>
      have hvalid' : Valid (p.noting [d]) := ⟨hvalid.scope, hvalid.around⟩
      have hfault : isFault d = true := List.contains_iff_mem.2 (Header.code_of_read hread)
      obtain ⟨next, hroles, hfst, hrun⟩ :=
        ih (take_spec hvalid' t).1 (List.forall_mem_cons.1 heof).2
      rw [← named_report_of_isFault hfault p]
      exact run_named_take hvalid' hroles hfst hrun
  | case4 p t rest hstart hread ih =>
      obtain ⟨next, hroles, hfst, hrun⟩ :=
        ih (take_spec hvalid t).1 (List.forall_mem_cons.1 heof).2
      exact run_named_take hvalid hroles hfst hrun
  | case5 p t rest hstart ih =>
      obtain ⟨next, hroles, hfst, hrun⟩ :=
        ih (take_spec hvalid t).1 (List.forall_mem_cons.1 heof).2
      exact run_named_take hvalid hroles hfst hrun

end Progress

/-! ### The tokens of a script -/

theorem contains_plainIndices (nodes : List Node) (i : Nat) :
    (plainIndices nodes).contains i = (rolesAll nodes)[i]?.any (·.2 = .plain) := by
  rw [Bool.eq_iff_iff, List.contains_iff_mem, plainIndices, List.mem_filter, List.mem_range]
  refine ⟨fun h => h.2, fun h => ⟨?_, h⟩⟩
  obtain ⟨x, hx, -⟩ := (Option.any_eq_true _ _).1 h
  exact (List.getElem?_eq_some_iff.1 hx).1

/-- The tokens of the tree get their names by their roles. Behind them nothing is changed. -/
theorem withNames_of_split {nodes : List Node} {tokens seen hidden : List Token}
    (htokens : tokens = seen ++ hidden) (hfst : (rolesAll nodes).map Prod.fst = seen) :
    withNames nodes tokens = (rolesAll nodes).map Role.naming ++ hidden := by
  subst htokens hfst
  apply List.ext_getElem?
  intro i
  rw [withNames, List.getElem?_mapIdx, contains_plainIndices]
  by_cases hi : i < (rolesAll nodes).length
  · rw [List.getElem?_append_left (by simpa using hi),
      List.getElem?_append_left (by simpa using hi), List.getElem?_map, List.getElem?_map,
      List.getElem?_eq_getElem hi]
    simp [Role.naming]
  · have hle : (rolesAll nodes).length ≤ i := Nat.le_of_not_lt hi
    rw [List.getElem?_append_right (by simpa using hle),
      List.getElem?_append_right (by simpa using hle), List.getElem?_eq_none hle]
    simp

theorem map_span_withNames (nodes : List Node) (tokens : List Token) :
    (withNames nodes tokens).map Token.span = tokens.map Token.span := by
  apply List.ext_getElem?
  intro i
  rw [withNames, List.getElem?_map, List.getElem?_mapIdx, List.getElem?_map, Option.map_map]
  congr 1
  funext t
  simp only [Function.comp_apply]
  split <;> simp

theorem stop_withNames (nodes : List Node) (tokens : List Token) :
    (withNames nodes tokens).getLast?.elim ({} : Location) (·.span.stop) =
      tokens.getLast?.elim {} (·.span.stop) := by
  have hlast : ∀ ts : List Token, ts.getLast?.elim ({} : Location) (·.span.stop) =
      (ts.map Token.span).getLast?.elim {} Span.stop := by
    intro ts
    rw [List.getLast?_map]
    cases ts.getLast? <;> rfl
  rw [hlast, map_span_withNames, ← hlast]

theorem visible_withNames (tokens : List Token) :
    Header.visible (withNames (parse tokens).nodes tokens) =
      (rolesAll (parse tokens).nodes).map Role.naming := by
  obtain ⟨hidden, htokens, hnil⟩ := Header.exists_hidden tokens
  have hfst := map_fst_rolesAll_parse tokens
  have heof : ∀ t ∈ (rolesAll (parse tokens).nodes).map Role.naming, t.isEof = false := by
    intro t ht
    obtain ⟨x, hx, rfl⟩ := List.mem_map.1 ht
    have hxeof :=
      Header.noEof_visible tokens x.1 (by rw [← hfst]; exact List.mem_map_of_mem hx)
    unfold Role.naming
    split
    · rwa [isEof_asName]
    · exact hxeof
  rw [withNames_of_split htokens hfst, Header.visible_append heof, hnil, List.append_nil]

/-- The parser has read the names as it has read the `let`s. -/
theorem run_withNames (tokens : List Token) :
    Progress.run {} (Header.visible (withNames (parse tokens).nodes tokens)) =
      (Progress.run {} (Header.visible tokens)).named := by
  have heof := Header.noEof_visible tokens
  obtain ⟨next, hroles, -, hrun⟩ := Progress.run_named Progress.valid_start heof
  have hvalid := (Progress.run_spec Progress.valid_start heof).1
  have hall : rolesAll (parse tokens).nodes = next :=
    (Progress.rolesAll_finish hvalid.around _).trans hroles
  rw [visible_withNames, hall, ← hrun, Progress.named_start]

/-- Behind a `let` that starts no block the parser goes on as behind a name. Let every `let`
that stands in a plain run of the tree of a script be made an identifier. The tree stays the
same up to these kinds, and of the diagnostics those remain that do not report a header, in the
same order. -/
theorem parse_withNames (tokens : List Token) :
    (rolesAll (parse tokens).nodes).map Prod.fst = Header.visible tokens ∧
    (parse (withNames (parse tokens).nodes tokens)).nodes = namedAll (parse tokens).nodes ∧
    (parse (withNames (parse tokens).nodes tokens)).diagnostics =
      (parse tokens).diagnostics.filter fun d =>
        !(["P001", "P002", "P003", "P004"].map utf8).contains d.code := by
  have hend : (Progress.run {} (Header.visible (withNames (parse tokens).nodes tokens))).finish
        ((withNames (parse tokens).nodes tokens).getLast?.elim {} (·.span.stop)) =
      ((Progress.run {} (Header.visible tokens)).finish
        (tokens.getLast?.elim {} (·.span.stop))).named := by
    rw [run_withNames, stop_withNames, Progress.finish_named]
  refine ⟨map_fst_rolesAll_parse tokens, ?_, ?_⟩
  · rw [parse_eq, parse_eq]
    exact (congrArg (·.scope.toNodes) hend).trans (Scope.toNodes_named _)
  · exact (congrArg (·.journal.toList) hend).trans
      (Progress.toList_named _ (map_filed_parse tokens))

end Node

end LetBlocks
