import LetBlocks.Proofs.Region.Partition
import LetBlocks.Proofs.Token.Stream

/-!
Whatever regions the lexer is given, each of its tokens begins where the one before ended, and
its span says so. If the regions themselves cover the text without gaps, nothing is cut down
and nothing is left over: each region is cut on its own, a literal into one token, and the
literals that are reported are the regions that were not closed.
-/

namespace LetBlocks

namespace Piece

theorem placed_append (source : Source) (pos : Nat) (ps qs : List Piece) :
    placed source pos (ps ++ qs) =
      placed source pos ps ++ placed source (pos + (spell ps).length) qs := by
  induction ps generalizing pos with
  | nil => rfl
  | cons p ps ih => simp [placed, ih, Nat.add_assoc]

theorem join_placed (source : Source) (pos : Nat) (ps : List Piece) :
    Token.join ((placed source pos ps).map Prod.fst) = spell ps := by
  induction ps generalizing pos with
  | nil => rfl
  | cons p ps ih => simp [placed, place, ih]

theorem kind_of_mem_placed {source : Source} {pos : Nat} {ps : List Piece} {t : Token × Bool}
    (h : t ∈ placed source pos ps) :
    ∃ p ∈ ps, t.1.kind = p.kind ∧ t.1.lexeme = p.lexeme ∧ t.2 = p.isOpen := by
  induction ps generalizing pos with
  | nil => simp [placed] at h
  | cons p ps ih =>
      rcases List.mem_cons.1 h with rfl | hmem
      · exact ⟨p, by simp, rfl, rfl, rfl⟩
      · obtain ⟨q, hq, hqt⟩ := ih hmem
        exact ⟨q, List.mem_cons_of_mem _ hq, hqt⟩

end Piece

namespace Token

open Piece

/-- Tokens that lie one behind another in a source, the first one at `pos`. -/
def Lies (source : Source) : Nat → List Token → Prop
  | _, [] => True
  | pos, t :: ts =>
      t.lexeme = source.slice pos (pos + t.lexeme.length) ∧
        t.span = source.span pos (pos + t.lexeme.length) ∧
        Lies source (pos + t.lexeme.length) ts

theorem lies_append {source : Source} {pos : Nat} {ts us : List Token} :
    Lies source pos (ts ++ us) ↔
      Lies source pos ts ∧ Lies source (pos + (join ts).length) us := by
  induction ts generalizing pos with
  | nil => simp [Lies]
  | cons t ts ih => simp [Lies, ih, Nat.add_assoc, and_assoc]

/-- Pieces that spell what a source holds from `pos` on lie there. -/
theorem lies_placed {source : Source} {pos : Nat} {ps : List Piece}
    (h : source.content.drop pos = spell ps) :
    Lies source pos ((placed source pos ps).map Prod.fst) := by
  induction ps generalizing pos with
  | nil => trivial
  | cons p ps ih =>
      rw [spell_cons] at h
      refine ⟨?_, rfl, ih ?_⟩
      · rw [Source.slice, h]
        simp [place]
      · rw [← List.drop_drop, h]
        simp [place]

theorem lies_lexAlong (source : Source) (regions : List Region) :
    Lies source 0 (lexAlong source regions).tokens := by
  have hspell := (tiles_cut source.content regions).1
  rw [tokens_lexAlong, lies_append, join_placed, hspell, Nat.zero_add]
  refine ⟨lies_placed hspell.symm, ?_, rfl, trivial⟩
  simp [endOf, Source.slice]

end Token

/-! ### Regions that cover the text -/

namespace Region.Covers

variable {pos stop : Nat} {regions : List Region}

theorem le (h : Covers pos regions stop) : pos ≤ stop := by
  induction regions generalizing pos with
  | nil => exact Nat.le_of_eq h
  | cons r regions ih =>
      obtain ⟨rfl, hlt, hmore⟩ := h
      exact Nat.le_trans (Nat.le_of_lt hlt) (ih hmore)

theorem bounds (h : Covers pos regions stop) :
    ∀ r ∈ regions, r.start < r.stop ∧ r.stop ≤ stop := by
  induction regions generalizing pos with
  | nil => simp
  | cons r regions ih =>
      obtain ⟨-, hlt, hmore⟩ := h
      exact List.forall_mem_cons.2 ⟨⟨hlt, hmore.le⟩, ih hmore⟩

end Region.Covers

theorem Source.slice_append_drop (source : Source) {start stop : Nat} (h : start ≤ stop) :
    source.slice start stop ++ source.content.drop stop = source.content.drop start := by
  conv_rhs => rw [← List.take_append_drop (stop - start) (source.content.drop start),
    List.drop_drop]
  rw [Source.slice, Nat.add_sub_cancel' h]

theorem Source.length_slice (source : Source) (start : Nat) {stop : Nat}
    (h : stop ≤ source.length) : (source.slice start stop).length = stop - start := by
  rw [Source.length] at h
  rw [Source.slice, List.length_take, List.length_drop]
  omega

namespace Piece

variable {source : Source} {pos : Nat} {regions : List Region} {r : Region}

/-- The pieces that a region of a source is cut into, if nothing else claims a part of it. -/
def ofRegion (source : Source) (r : Region) : List Piece :=
  regionPieces r (source.slice r.start r.stop)

theorem slice_ne_nil (hlt : r.start < r.stop) (hle : r.stop ≤ source.length) :
    source.slice r.start r.stop ≠ [] := by
  apply List.ne_nil_of_length_pos
  rw [source.length_slice r.start hle]
  omega

theorem length_spell_ofRegion (hlt : r.start < r.stop) (hle : r.stop ≤ source.length) :
    r.start + (spell (ofRegion source r)).length = r.stop := by
  rw [ofRegion, (tiles_regionPieces r (slice_ne_nil hlt hle)).1,
    source.length_slice r.start hle]
  omega

/-- Regions that cover the text are cut one by one. -/
theorem toList_cutFrom_of_covers {done : Array Piece}
    (h : Region.Covers pos regions source.length) :
    (cutFrom source.length pos (source.content.drop pos) done regions).toList =
      done.toList ++ regions.flatMap (ofRegion source) := by
  induction regions generalizing pos done with
  | nil =>
      obtain rfl : pos = source.length := h
      rw [cutFrom, Source.length, List.drop_length, toList_cutCode]
      simp
  | cons r regions ih =>
      obtain ⟨rfl, hlt, hmore⟩ := h
      have hlength := source.length_slice r.start hmore.le
      have hstop : r.start + (source.slice r.start r.stop).length = r.stop := by omega
      rw [← source.slice_append_drop (Nat.le_of_lt hlt),
        cutFrom_region (slice_ne_nil hlt hmore.le) rfl hstop.symm (hstop.trans_le hmore.le),
        hstop, ih hmore]
      simp [ofRegion]

theorem cut_of_covers (h : Region.Covers 0 regions source.length) :
    cut source.content regions = regions.flatMap (ofRegion source) := by
  have hcut := @toList_cutFrom_of_covers source 0 regions #[] h
  rwa [List.drop_zero, Array.toList_empty, List.nil_append] at hcut

/-- So each of them has its tokens where it lies. -/
theorem placed_of_covers (h : Region.Covers pos regions source.length) :
    placed source pos (regions.flatMap (ofRegion source)) =
      regions.flatMap fun r => placed source r.start (ofRegion source r) := by
  induction regions generalizing pos with
  | nil => rfl
  | cons r regions ih =>
      obtain ⟨rfl, hlt, hmore⟩ := h
      rw [List.flatMap_cons, List.flatMap_cons, placed_append,
        length_spell_ofRegion hlt hmore.le, ih hmore]

/-- A literal region is one token. -/
theorem placed_ofRegion_literal (hkind : r.kind ≠ .code) (hlt : r.start < r.stop)
    (hle : r.stop ≤ source.length) :
    placed source r.start (ofRegion source r) =
      [({ kind := literalKind r.kind
          lexeme := source.slice r.start r.stop
          span := source.span r.start r.stop },
        !r.closed && literalKind r.kind != .lineComment)] := by
  have hstop : r.start + (source.slice r.start r.stop).length = r.stop := by
    rw [source.length_slice r.start hle]
    omega
  rw [ofRegion, regionPieces_literal hkind]
  simp [placed, place, isOpen, hstop]

theorem leading_kind_not_literal (b : Byte) (rest : Text) :
    (leading b rest).1.isLiteral = false := by
  unfold leading
  dsimp only
  split_ifs <;> rfl

/-- Code is cut into tokens that are no literals. -/
theorem not_literal_of_mem_codePieces (text : Text) :
    ∀ p ∈ codePieces text, p.kind.isLiteral = false ∧ p.isOpen = false := by
  induction hlen : text.length using Nat.strong_induction_on generalizing text with
  | _ n ih =>
      cases text with
      | nil => simp
      | cons b rest =>
          have hlt : (rest.drop (leading b rest).2).length < n := by
            simp only [← hlen, List.length_drop, List.length_cons]
            omega
          rw [codePieces_cons, List.forall_mem_cons]
          exact ⟨⟨leading_kind_not_literal b rest, rfl⟩, ih _ hlt _ rfl⟩

theorem not_literal_of_mem_placed (hkind : r.kind = .code) :
    ∀ t ∈ placed source pos (ofRegion source r), t.1.kind.isLiteral = false ∧ t.2 = false := by
  intro t ht
  obtain ⟨p, hp, hpkind, -, hpopen⟩ := kind_of_mem_placed ht
  have hpieces : ofRegion source r = codePieces (source.slice r.start r.stop) := by
    simp [ofRegion, regionPieces, hkind, Token.Kind.ofRegion?]
  rw [hpkind, hpopen]
  exact not_literal_of_mem_codePieces _ p (hpieces ▸ hp)

end Piece

namespace Token

open Piece

variable {source : Source} {pos : Nat} {regions : List Region} {r : Region}

/-- The tokens with the offsets at which they start, the first one at `pos`. -/
def offsets (pos : Nat) : List Token → List (Nat × Token)
  | [] => []
  | t :: ts => (pos, t) :: offsets (pos + t.lexeme.length) ts

theorem offsets_append (pos : Nat) (ts us : List Token) :
    offsets pos (ts ++ us) = offsets pos ts ++ offsets (pos + (join ts).length) us := by
  induction ts generalizing pos with
  | nil => rfl
  | cons t ts ih => simp [offsets, ih, Nat.add_assoc]

theorem mem_of_mem_offsets {pos : Nat} {ts : List Token} {x : Nat × Token}
    (h : x ∈ offsets pos ts) : x.2 ∈ ts := by
  induction ts generalizing pos with
  | nil => cases h
  | cons t ts ih =>
      rcases List.mem_cons.1 h with rfl | hmem
      · simp
      · exact List.mem_cons_of_mem _ (ih hmem)

def ofRegion? (source : Source) (r : Region) : Option (Nat × Token) :=
  (Kind.ofRegion? r.kind).map fun kind =>
    (r.start,
      { kind, lexeme := source.slice r.start r.stop, span := source.span r.start r.stop })

/-- Of a region's tokens only that of a literal region is a literal, and it is the whole
region. -/
theorem literals_ofRegion (hlt : r.start < r.stop) (hle : r.stop ≤ source.length) :
    (offsets r.start ((placed source r.start (Piece.ofRegion source r)).map Prod.fst)).filter
      (·.2.kind.isLiteral) = (ofRegion? source r).toList := by
  by_cases hkind : r.kind = .code
  · rw [ofRegion?, hkind, List.filter_eq_nil_iff.2]
    · rfl
    · intro x hx
      obtain ⟨t, ht, htx⟩ := List.mem_map.1 (mem_of_mem_offsets hx)
      rw [← htx, (not_literal_of_mem_placed hkind t ht).1]
      simp
  · rw [placed_ofRegion_literal hkind hlt hle, ofRegion?]
    cases hregion : r.kind <;> first | exact absurd hregion hkind | rfl

theorem literals_of_covers (h : Region.Covers pos regions source.length) :
    (offsets pos
      ((placed source pos (regions.flatMap (Piece.ofRegion source))).map Prod.fst)).filter
        (·.2.kind.isLiteral) =
      regions.filterMap (ofRegion? source) := by
  induction regions generalizing pos with
  | nil => rfl
  | cons r regions ih =>
      obtain ⟨rfl, hlt, hmore⟩ := h
      rw [List.flatMap_cons, placed_append, List.map_append, offsets_append,
        List.filter_append, join_placed, literals_ofRegion hlt hmore.le,
        length_spell_ofRegion hlt hmore.le, ih hmore, List.filterMap_cons]
      cases ofRegion? source r <;> rfl

def openLiteral (source : Source) (r : Region) : Diagnostic :=
  (Problem.openLiteral (literalKind r.kind) (source.location r.start).line).diagnostic
    (source.span r.start r.stop)

def isReported (r : Region) : Bool :=
  !r.closed && [Region.Kind.string, .template, .regex, .blockComment].contains r.kind

theorem reports_ofRegion (hlt : r.start < r.stop) (hle : r.stop ≤ source.length) :
    (placed source r.start (Piece.ofRegion source r)).filterMap report? =
      ([r].filter isReported).map (openLiteral source) := by
  by_cases hkind : r.kind = .code
  · rw [List.filterMap_eq_nil_iff.2]
    · simp [isReported, hkind]
    · intro t ht
      simp [report?, (not_literal_of_mem_placed hkind t ht).2]
  · rw [placed_ofRegion_literal hkind hlt hle]
    cases hclosed : r.closed <;> cases hregion : r.kind <;>
      first
      | exact absurd hregion hkind
      | simp [report?, isReported, openLiteral, hclosed, hregion, literalKind, Kind.ofRegion?,
          Source.span]

theorem reports_of_bounds (h : ∀ r ∈ regions, r.start < r.stop ∧ r.stop ≤ source.length) :
    (regions.flatMap fun r => placed source r.start (Piece.ofRegion source r)).filterMap
      report? = (regions.filter isReported).map (openLiteral source) := by
  induction regions with
  | nil => rfl
  | cons r regions ih =>
      obtain ⟨⟨hlt, hle⟩, hmore⟩ := List.forall_mem_cons.1 h
      rw [List.flatMap_cons, List.filterMap_append, reports_ofRegion hlt hle, ih hmore,
        ← List.map_append, ← List.filter_append, List.singleton_append]

/-- Whatever regions the lexer is given, its tokens tile the source: one after another they
spell it, only the last one is the end of input and only that one is empty, and each is what
the source holds from the end of the one before. If the regions cover the source without gaps,
the literals among the tokens are the literal regions, with their bounds and their kinds, and
what is reported is, in order, each string, template, regular expression and block comment that
is not closed. -/
theorem lexAlong_tiles (source : Source) (regions : List Region) :
    join (lexAlong source regions).tokens = source.content ∧
      (∃ ts last, (lexAlong source regions).tokens = ts ++ [last] ∧ last.kind = .eof ∧
        last.lexeme = [] ∧ ∀ t ∈ ts, t.kind ≠ .eof ∧ t.lexeme ≠ []) ∧
      (∀ before t after, (lexAlong source regions).tokens = before ++ t :: after →
        t.lexeme = source.slice (join before).length ((join before).length + t.lexeme.length) ∧
          t.span = source.span (join before).length ((join before).length + t.lexeme.length)) ∧
      (Region.Covers 0 regions source.length →
        (offsets 0 (lexAlong source regions).tokens).filter (·.2.kind.isLiteral) =
            regions.filterMap (ofRegion? source) ∧
          (lexAlong source regions).diagnostics =
            (regions.filter isReported).map (openLiteral source)) := by
  obtain ⟨hspell, hpieces⟩ := tiles_cut source.content regions
  refine ⟨?_, ?_, ?_, fun hcovers => ⟨?_, ?_⟩⟩
  · rw [tokens_lexAlong, join_append, join_placed, hspell]
    simp [endOf]
  · refine ⟨_, _, tokens_lexAlong source regions, rfl, rfl, ?_⟩
    rw [List.forall_mem_map]
    intro t ht
    obtain ⟨p, hp, hkind, hlexeme, -⟩ := kind_of_mem_placed ht
    rw [hkind, hlexeme]
    exact hpieces p hp
  · intro before t after hsplit
    have hlies := lies_lexAlong source regions
    rw [hsplit, lies_append, Nat.zero_add] at hlies
    exact ⟨hlies.2.1, hlies.2.2.1⟩
  · rw [tokens_lexAlong, cut_of_covers hcovers, offsets_append, List.filter_append,
      literals_of_covers hcovers]
    exact List.append_nil _
  · rw [diagnostics_lexAlong, cut_of_covers hcovers, placed_of_covers hcovers,
      reports_of_bounds hcovers.bounds]

/-- Three regions that cover a source, two of them open literals. -/
theorem lexAlong_tiles_open :
    let source := Source.ofText (utf8 "a 'b/*")
    let regions : List Region :=
      [⟨.code, 0, 2, true⟩, ⟨.string, 2, 4, false⟩, ⟨.blockComment, 4, 6, false⟩]
    Region.Covers 0 regions source.length ∧
      ((offsets 0 (lexAlong source regions).tokens).filter (·.2.kind.isLiteral)).map
        (fun x => (x.1, x.2.kind)) = [(2, .string), (4, .blockComment)] ∧
      (lexAlong source regions).diagnostics.map (·.code) = [utf8 "L002", utf8 "L004"] := by
  intro source regions
  have hcovers : Region.Covers 0 regions source.length :=
    ⟨rfl, by decide, rfl, by decide, rfl, by decide, rfl⟩
  obtain ⟨-, -, -, hregions⟩ := lexAlong_tiles source regions
  obtain ⟨hliterals, hdiagnostics⟩ := hregions hcovers
  refine ⟨hcovers, ?_, ?_⟩
  · rw [hliterals]
    rfl
  · rw [hdiagnostics]
    rfl

end Token

end LetBlocks
