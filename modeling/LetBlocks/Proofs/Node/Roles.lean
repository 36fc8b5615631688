import LetBlocks.Proofs.Node.Blocks

/-!
Every token before the end of a script comes to stand in the tree: in a plain run, in the
header of a block, or as the brace that closes one. `rolesAll` lists the tokens of a tree in
order, each with its role. At each word `let` of a plain run that does not follow a dot the
parser has tried to read a header, and `readings` lists what came of it. Both lists only grow
at their ends while the tokens are taken, so the parser's diagnostics can be compared with them
step by step.
-/

namespace LetBlocks.Node

open Token Piece

/-- What a token of a script is in its tree. -/
inductive Role
  /-- It stands in a plain run. -/
  | plain
  /-- It is the token at an index of a header. -/
  | header (header : Header) (index : Nat)
  /-- It closes a block. -/
  | closing
  deriving DecidableEq

def headerRoles (header : Header) : List (Token × Role) :=
  header.tokens.zipIdx.map fun (t, index) => (t, .header header index)

mutual

def roles : Node → List (Token × Role)
  | plain ts => ts.map (·, .plain)
  | letBlock header body closing _ =>
    headerRoles header ++ rolesAll body ++ closing.toList.map (·, .closing)

def rolesAll : List Node → List (Token × Role)
  | [] => []
  | node :: nodes => node.roles ++ rolesAll nodes

end

@[simp] theorem rolesAll_append (nodes nodes' : List Node) :
    rolesAll (nodes ++ nodes') = rolesAll nodes ++ rolesAll nodes' := by
  induction nodes with
  | nil => rfl
  | cons node nodes ih => simp [rolesAll, ih]

@[simp] theorem map_fst_headerRoles (header : Header) :
    (headerRoles header).map Prod.fst = header.tokens := by
  rw [headerRoles, List.map_map]
  exact List.zipIdx_map_fst 0 header.tokens

mutual

theorem map_fst_roles : ∀ node : Node, node.roles.map Prod.fst = node.tokens
  | plain ts => by simp [roles, tokens, Function.comp_def]
  | letBlock header body closing _ => by
      rw [roles, tokens, List.map_append, List.map_append, map_fst_headerRoles,
        map_fst_rolesAll body]
      simp [Function.comp_def]

theorem map_fst_rolesAll : ∀ nodes : List Node, (rolesAll nodes).map Prod.fst = tokensAll nodes
  | [] => rfl
  | node :: nodes => by
      rw [rolesAll, tokensAll, List.map_append, map_fst_roles node, map_fst_rolesAll nodes]

end

/-! ### Roles so far -/

def Scope.roles (s : Scope) : List (Token × Role) :=
  rolesAll s.nodes.reverse ++ s.run.reverse.map (·, .plain)

def OpenBlock.roles (b : OpenBlock) : List (Token × Role) :=
  b.outer.roles ++ headerRoles b.header

theorem rolesAll_toNodes (s : Scope) : rolesAll s.toNodes = s.roles := by
  unfold Scope.toNodes Scope.flushed Scope.roles
  split_ifs with h
  · simp [h]
  · simp [rolesAll, Node.roles]

namespace Progress

def roles (p : Progress) : List (Token × Role) :=
  p.around.reverse.flatMap OpenBlock.roles ++ p.scope.roles

theorem map_fst_roles (p : Progress) : p.roles.map Prod.fst = p.content := by
  have hscope : ∀ s : Scope, s.roles.map Prod.fst = s.content := by
    intro s
    rw [← rolesAll_toNodes, map_fst_rolesAll, tokensAll_toNodes]
  have hblock : ∀ b : OpenBlock, b.roles.map Prod.fst = b.content := by
    intro b
    rw [OpenBlock.roles, List.map_append, hscope, map_fst_headerRoles, OpenBlock.content]
  rw [roles, content, List.map_append, List.map_flatMap, hscope]
  simp only [hblock]

theorem roles_append (p : Progress) (t : Token) :
    (p.append t).roles = p.roles ++ [(t, .plain)] := by
  simp [roles, append, Scope.roles]

theorem roles_openBlock (p : Progress) (t : Token) (header : Header) :
    (p.openBlock t header).roles = p.roles ++ headerRoles header := by
  have houter : Scope.roles { p.scope with nodes := p.scope.flushed, run := [] } =
      p.scope.roles := by
    rw [← rolesAll_toNodes p.scope]
    simp [Scope.roles, Scope.toNodes]
  simp only [roles, openBlock, List.reverse_cons, List.flatMap_append, List.flatMap_cons,
    List.flatMap_nil, List.append_nil, OpenBlock.roles, houter]
  simp [Scope.roles, rolesAll]

theorem roles_closeBlock {p : Progress} {b : OpenBlock} {around : List OpenBlock}
    (hp : p.around = b :: around) (hrun : b.outer.run = []) (closing : Option Token)
    (stop : Location) :
    (p.closeBlock closing stop).roles = p.roles ++ closing.toList.map (·, .closing) := by
  simp [closeBlock, hp, roles, Scope.roles, OpenBlock.roles, hrun, rolesAll, Node.roles,
    rolesAll_toNodes]

/-- A token that opens no block gets a role of its own. It closes a block only if it is a
punctuator. -/
theorem roles_take {p : Progress} (hp : p.Valid) (t : Token) :
    ∃ role, (p.take t).roles = p.roles ++ [(t, role)] ∧ (t.kind ≠ .punct → role = .plain) := by
  obtain ⟨ds, -, ⟨h, -⟩ | ⟨h, haround, hcloses, -⟩⟩ := take_inversion p t
  · refine ⟨.plain, ?_, fun _ => rfl⟩
    rw [h, roles_append]
    rfl
  · obtain ⟨b, around, hcons⟩ := List.exists_cons_of_ne_nil haround
    have hrun : b.outer.run = [] := (hp.around b (by simp [hcons])).flushed
    refine ⟨.closing, ?_, fun hkind => absurd (closes?_eq_some_iff.1 hcloses).1 hkind⟩
    have hclose := roles_closeBlock (p := (p.noting ds)) hcons hrun (some t) t.span.stop
    rw [h]
    exact hclose

/-- Ending the script gives no token another role. -/
theorem rolesAll_finish {p : Progress} (hp : ∀ b ∈ p.around, b.Valid) (stop : Location) :
    rolesAll (p.finish stop).scope.toNodes = p.roles := by
  have hstep : ∀ (q : Progress) (b : OpenBlock) (around : List OpenBlock),
      q.around = b :: around → (∀ c ∈ q.around, c.Valid) ∧ q.roles = p.roles →
      (∀ c ∈ (abandon stop q b).around, c.Valid) ∧ (abandon stop q b).roles = p.roles := by
    rintro q b around hq ⟨hvalid, hroles⟩
    rw [hq, List.forall_mem_cons] at hvalid
    refine ⟨by rw [around_abandon hq]; exact hvalid.2, ?_⟩
    rw [abandon, roles_closeBlock (p := q.warn _ _) hq hvalid.1.flushed none stop, ← hroles]
    exact List.append_nil _
  obtain ⟨⟨-, hroles⟩, hnil⟩ := finish_induction
    (motive := fun q => (∀ c ∈ q.around, c.Valid) ∧ q.roles = p.roles) hstep p ⟨hp, rfl⟩
  rw [← hroles, roles, hnil, rolesAll_toNodes]
  rfl

end Progress

/-! ### Attempts at headers -/

/-- What reading a header comes to at each word `let` of a plain run, in order; those that
follow a dot are left out. `dotted` says whether a dot precedes the tokens, and `rest` are the
tokens behind them. -/
def readings : Bool → List (Token × Role) → List Token → List Header.Reading
  | _, [], _ => []
  | dotted, (t, role) :: more, rest =>
      (if role = .plain ∧ t.kind = .kwLet ∧ dotted = false then
        [Header.read t (more.map Prod.fst ++ rest)]
      else []) ++
        readings (t.toPiece.dots dotted) more rest

theorem readings_append (dotted : Bool) (xs ys : List (Token × Role)) (rest : List Token) :
    readings dotted (xs ++ ys) rest =
      readings dotted xs (ys.map Prod.fst ++ rest) ++
        readings (dotsAll dotted ((xs.map Prod.fst).map toPiece)) ys rest := by
  induction xs generalizing dotted with
  | nil => rfl
  | cons x xs ih =>
      rw [List.cons_append, readings, readings, ih, List.append_assoc, List.map_append,
        List.append_assoc]
      rfl

theorem readings_of_not_plain {xs : List (Token × Role)} (h : ∀ x ∈ xs, x.2 ≠ .plain)
    (dotted : Bool) (rest : List Token) : readings dotted xs rest = [] := by
  induction xs generalizing dotted with
  | nil => rfl
  | cons x xs ih =>
      rw [List.forall_mem_cons] at h
      rw [readings, if_neg (fun hx => h.1 hx.1), ih h.2, List.nil_append]

theorem headerRoles_not_plain (header : Header) : ∀ x ∈ headerRoles header, x.2 ≠ .plain := by
  intro x hx
  obtain ⟨y, -, rfl⟩ := List.mem_map.1 hx
  simp

/-- A brace is no dot. -/
theorem dotsAll_append_curly {t : Token} (hkind : t.kind = .punct)
    (hlexeme : t.lexeme = [Byte.openCurly] ∨ t.lexeme = [Byte.closeCurly]) (dotted : Bool)
    (ts : List Token) : dotsAll dotted ((ts ++ [t]).map toPiece) = false := by
  rw [List.map_append, dotsAll, List.foldl_append, List.map_singleton, List.foldl_cons, dots,
    toPiece_kind, toPiece_lexeme, hkind]
  rcases hlexeme with hlexeme | hlexeme <;>
    · rw [hlexeme]
      rfl

theorem dotsAll_header {header : Header}
    (h : Header.IsHeader header.tokens header.declarations) (dotted : Bool) :
    dotsAll dotted (header.tokens.map toPiece) = false := by
  obtain ⟨more, brace, htokens, hbrace⟩ := h.exists_brace
  obtain ⟨hkind, hlexeme⟩ := isPunct_iff.1 hbrace
  rw [htokens, dotsAll_append_curly hkind (.inl hlexeme)]

def fault? : Header.Reading → Option Diagnostic
  | .faulty d => some d
  | _ => none

def isFault (d : Diagnostic) : Bool := Header.faultCodes.contains d.code

namespace Progress

/-- What the parser has reported about headers is what reading them comes to, and it has passed
none. `rest` are the tokens that are still to come. -/
structure Logged (p : Progress) (rest : List Token) : Prop where
  dot : p.afterDot = dotsAll false (p.content.map toPiece)
  faults : p.diagnostics.reverse.filter isFault =
    (readings false p.roles rest).filterMap fault?
  notFound : ∀ header rest', .found header rest' ∉ readings false p.roles rest

variable {p q : Progress} {rest : List Token}

/-- A step that gives roles to the next tokens. -/
theorem Logged.extend {next : List (Token × Role)} (hp : p.Logged (next.map Prod.fst ++ rest))
    (hroles : q.roles = p.roles ++ next)
    (hdot : q.afterDot = dotsAll p.afterDot ((next.map Prod.fst).map toPiece))
    (hfaults : q.diagnostics.reverse.filter isFault =
      p.diagnostics.reverse.filter isFault ++ (readings p.afterDot next rest).filterMap fault?)
    (hfound : ∀ header rest', .found header rest' ∉ readings p.afterDot next rest) :
    q.Logged rest := by
  have hreadings : readings false q.roles rest =
      readings false p.roles (next.map Prod.fst ++ rest) ++ readings p.afterDot next rest := by
    rw [hroles, readings_append, map_fst_roles, ← hp.dot]
  constructor
  · rw [hdot, hp.dot, ← map_fst_roles q, hroles, List.map_append, List.map_append,
      map_fst_roles, dotsAll, dotsAll, dotsAll, List.foldl_append]
  · rw [hfaults, hp.faults, hreadings, List.filterMap_append]
  · intro header rest' hmem
    rw [hreadings, List.mem_append] at hmem
    exact hmem.elim (hp.notFound header rest') (hfound header rest')

/-- Diagnostics of other kinds do not count. -/
theorem filter_isFault_append {ds : List Diagnostic} (h : ∀ d ∈ ds, isFault d = false)
    (ds' : List Diagnostic) :
    (ds ++ ds').reverse.filter isFault = ds'.reverse.filter isFault := by
  have hnil : ds.reverse.filter isFault = [] := by
    rw [List.filter_eq_nil_iff]
    intro d hd
    simp [h d (List.mem_reverse.1 hd)]
  rw [List.reverse_append, List.filter_append, hnil, List.append_nil]

theorem isFault_of_mismatches {ds : List Diagnostic} (h : Mismatches ds) :
    ∀ d ∈ ds, isFault d = false := by
  intro d hd
  rw [isFault, h d hd]
  decide

theorem filter_isFault_take (p : Progress) (t : Token) :
    (p.take t).diagnostics.reverse.filter isFault = p.diagnostics.reverse.filter isFault := by
  rw [diagnostics_take,
    filter_isFault_append (isFault_of_mismatches (mismatches_complaints p t))]

/-- A token that opens no block. If it is a `let` at which a header was tried, the reader has
failed. -/
theorem Logged.take {t : Token} (hp : p.Logged (t :: rest)) (hvalid : p.Valid)
    (ds : List Diagnostic)
    (hds : (p.noting ds).diagnostics.reverse.filter isFault =
      p.diagnostics.reverse.filter isFault ++
      (readings p.afterDot [(t, .plain)] rest).filterMap fault?)
    (hfound : ∀ header rest', .found header rest' ∉ readings p.afterDot [(t, .plain)] rest) :
    (take (p.noting ds) t).Logged rest := by
  have hvalid' : Valid (p.noting ds) := ⟨hvalid.scope, hvalid.around⟩
  obtain ⟨role, hroles, hrole⟩ := roles_take hvalid' t
  -- a punctuator is no `let`, so there its role does not matter
  have hreadings : readings p.afterDot [(t, role)] rest =
      readings p.afterDot [(t, .plain)] rest := by
    by_cases hkind : t.kind = .punct
    · simp [readings, hkind]
    · rw [hrole hkind]
  have hnext : p.Logged ([(t, role)].map Prod.fst ++ rest) := hp
  refine hnext.extend hroles ?_ ?_ ?_
  · rw [afterDot_take]
    rfl
  · rw [filter_isFault_take, hreadings]
    exact hds
  · rwa [hreadings]

theorem Logged.openBlock {t : Token} {header : Header} (hp : p.Logged (header.tokens ++ rest))
    (hheader : Header.IsHeader header.tokens header.declarations) :
    (p.openBlock t header).Logged rest := by
  have hreadings := readings_of_not_plain (headerRoles_not_plain header) p.afterDot rest
  rw [← map_fst_headerRoles header] at hp
  refine hp.extend (roles_openBlock p t header) ?_ ?_ ?_
  · rw [afterDot_openBlock hheader, map_fst_headerRoles, dotsAll_header hheader]
  · rw [hreadings]
    exact (List.append_nil _).symm
  · simp [hreadings]

theorem Logged.run {ts : List Token} (hp : p.Logged ts) (hvalid : p.Valid)
    (heof : ∀ t ∈ ts, t.isEof = false) : (p.run ts).Logged [] := by
  fun_induction Progress.run p ts with
  | case1 p => exact hp
  | case2 p t rest hstart header rest' hread ih =>
      obtain ⟨hsplit, hheader⟩ :=
        Header.read_sound hread hstart.1 (List.forall_mem_cons.1 heof).2
      rw [hsplit] at hp heof
      exact ih (hp.openBlock hheader) (hvalid.openBlock hheader)
        (List.forall_mem_append.1 heof).2
  | case3 p t rest hstart d hread ih =>
      have hvalid' : Valid (p.noting [d]) := ⟨hvalid.scope, hvalid.around⟩
      have hreadings : readings p.afterDot [(t, .plain)] rest = [.faulty d] := by
        rw [readings, if_pos ⟨rfl, hstart⟩, List.map_nil, List.nil_append, hread]
        rfl
      have hfault : isFault d = true := List.contains_iff_mem.2 (Header.code_of_read hread)
      refine ih (hp.take hvalid [d] ?_ ?_) (take_spec hvalid' t).1
        (List.forall_mem_cons.1 heof).2
      · rw [hreadings, diagnostics_noting (filed_singleton (Header.filed_of_read hread))]
        simp [hfault, fault?]
      · simp [hreadings]
  | case4 p t rest hstart hread ih =>
      have hreadings : readings p.afterDot [(t, .plain)] rest = [.absent] := by
        rw [readings, if_pos ⟨rfl, hstart⟩, List.map_nil, List.nil_append, hread]
        rfl
      refine ih (hp.take hvalid [] ?_ ?_) (take_spec hvalid t).1
        (List.forall_mem_cons.1 heof).2
      · rw [hreadings]
        simp [fault?]
      · simp [hreadings]
  | case5 p t rest hstart ih =>
      have hreadings : readings p.afterDot [(t, .plain)] rest = [] := by
        rw [readings, if_neg fun h => hstart h.2]
        rfl
      refine ih (hp.take hvalid [] ?_ ?_) (take_spec hvalid t).1
        (List.forall_mem_cons.1 heof).2
      · rw [hreadings]
        simp
      · simp [hreadings]

theorem logged_start (ts : List Token) : Logged {} ts :=
  ⟨rfl, rfl, by simp [roles, Scope.roles, rolesAll, readings]⟩

end Progress

/-- The parser has reported exactly the attempts at headers that failed, in order, and it has
passed no header. -/
theorem readings_parse (tokens : List Token) :
    (parse tokens).diagnostics.filter isFault =
        (readings false (rolesAll (parse tokens).nodes) []).filterMap fault? ∧
      ∀ header rest, .found header rest ∉ readings false (rolesAll (parse tokens).nodes)
        [] := by
  have heof : ∀ t ∈ tokens.takeWhile (!·.isEof), t.isEof = false := isEof_of_mem_takeWhile
  have hrun := (Progress.logged_start _).run Progress.valid_start heof
  have hvalid := (Progress.run_spec Progress.valid_start heof).1
  have hreports : ∀ d ∈
      ((Progress.run {} (tokens.takeWhile (!·.isEof))).around.map OpenBlock.report).reverse,
      isFault d = false := by
    intro d hd
    rw [List.mem_reverse, List.mem_map] at hd
    obtain ⟨b, -, rfl⟩ := hd
    exact (by decide : Header.faultCodes.contains (utf8 "P005") = false)
  rw [parse_eq, Progress.diagnostics_finish, Progress.rolesAll_finish hvalid.around,
    Progress.filter_isFault_append hreports]
  exact ⟨hrun.faults, hrun.notFound⟩

end LetBlocks.Node
