import LetBlocks.Proofs.Node.Sequences

/-!
In the style with layers, the declarations of a tree enter the output through their layers and
in no other way. So the output is a text that has the layers put in, one for each declaration,
in the order in which the declarations stand in the tree; and if each layer is changed by
putting something in, so is the output.
-/

namespace LetBlocks

namespace Text

/-- `whole` is the text `base` with `pieces` put in, in their order. -/
inductive Inserted : List Text → Text → Text → Prop
  | nil : Inserted [] [] []
  | byte (b : Byte) {pieces : List Text} {base whole : Text} (h : Inserted pieces base whole) :
      Inserted pieces (b :: base) (b :: whole)
  | piece (text : Text) {pieces : List Text} {base whole : Text}
      (h : Inserted pieces base whole) :
      Inserted (text :: pieces) base (text ++ whole)

namespace Inserted

theorem refl (text : Text) : Inserted [] text text := by
  induction text with
  | nil => exact .nil
  | cons b text ih => exact ih.byte b

theorem single (text : Text) : Inserted [text] [] text := by
  have h := Inserted.nil.piece text
  rwa [List.append_nil] at h

theorem append {pieces pieces' : List Text} {base base' whole whole' : Text}
    (h : Inserted pieces base whole) (h' : Inserted pieces' base' whole') :
    Inserted (pieces ++ pieces') (base ++ base') (whole ++ whole') := by
  induction h with
  | nil => exact h'
  | byte b _ ih => exact ih.byte b
  | piece text _ ih =>
      rw [List.cons_append, List.append_assoc]
      exact ih.piece text

theorem flatMap {α : Type} {f : α → List Text} {g g' : α → Text}
    (h : ∀ x, Inserted (f x) (g x) (g' x)) (xs : List α) :
    Inserted (xs.flatMap f) (xs.flatMap g) (xs.flatMap g') := by
  induction xs with
  | nil => exact .nil
  | cons x xs ih => exact (h x).append ih

end Inserted

end Text

namespace Node

def declarations : Node → List Declaration
  | plain _ => []
  | letBlock header _ _ _ => header.declarations

/-- The declarations of all let-blocks in a sequence of nodes, those of a block before those in
its body. -/
def declarationsAll (nodes : List Node) : List Declaration :=
  (withinAll nodes).flatMap declarations

theorem declarationsAll_cons (node : Node) (nodes : List Node) :
    declarationsAll (node :: nodes) =
      node.within.flatMap declarations ++ declarationsAll nodes := by
  rw [declarationsAll, withinAll, List.flatMap_append, declarationsAll]

end Node

namespace Output

open Node

/-! ### Writing with any layers -/

def layersText (layer : Declaration → Text) (header : Header) : Text :=
  if header.declarations = [] then Token.join header.tokens
  else header.declarations.flatMap layer

mutual

def layeredNode (layer : Declaration → Text) (trim first last : Bool) : Node → Text
  | .plain tokens => plainText trim first last tokens
  | .letBlock header body closing _ =>
    layersText layer header ++ layeredFrom layer (trimsBody header) true body ++
      closingText { es3 := true } header closing

def layeredFrom (layer : Declaration → Text) (trim first : Bool) : List Node → Text
  | [] => []
  | node :: nodes =>
    layeredNode layer trim first nodes.isEmpty node ++ layeredFrom layer trim false nodes

end

def layered (layer : Declaration → Text) (nodes : List Node) : Text :=
  layeredFrom layer false true nodes

mutual

theorem writeNode_eq_layeredNode (annotate trim first last : Bool) : ∀ node,
    writeNode { es3 := true, annotate } trim first last node =
      layeredNode (layerText { es3 := true, annotate }) trim first last node
  | .plain tokens => by
      rw [writeNode, layeredNode]
  | .letBlock header body closing _ => by
      rw [writeNode, layeredNode, writeFrom_eq_layeredFrom annotate _ true body]
      rfl

theorem writeFrom_eq_layeredFrom (annotate trim first : Bool) : ∀ nodes,
    writeFrom { es3 := true, annotate } trim first nodes =
      layeredFrom (layerText { es3 := true, annotate }) trim first nodes
  | [] => by
      rw [writeFrom, layeredFrom]
  | node :: nodes => by
      rw [writeFrom, layeredFrom, writeNode_eq_layeredNode annotate trim first _ node,
        writeFrom_eq_layeredFrom annotate trim false nodes]

end

theorem render_eq_layered (annotate : Bool) (nodes : List Node) :
    render { es3 := true, annotate } nodes =
      layered (layerText { es3 := true, annotate }) nodes := by
  rw [render_eq_write, write, writeFrom_eq_layeredFrom, layered]

/-! ### What is put into the layers is put into the text -/

section

variable {layer layer' : Declaration → Text} {pieces : Declaration → List Text}

theorem inserted_layersText (h : ∀ d, Text.Inserted (pieces d) (layer d) (layer' d))
    (header : Header) :
    Text.Inserted (header.declarations.flatMap pieces) (layersText layer header)
      (layersText layer' header) := by
  unfold layersText
  split_ifs with hnone
  · rw [hnone]
    exact .refl _
  · exact .flatMap h header.declarations

mutual

theorem inserted_layeredNode (h : ∀ d, Text.Inserted (pieces d) (layer d) (layer' d))
    (trim first last : Bool) :
    ∀ node : Node, Text.Inserted ((node.within.flatMap declarations).flatMap pieces)
      (layeredNode layer trim first last node) (layeredNode layer' trim first last node)
  | .plain tokens => .refl _
  | .letBlock header body closing span => by
      rw [layeredNode, layeredNode, within, List.flatMap_cons, List.flatMap_append]
      have hbody := inserted_layeredFrom h (trimsBody header) true body
      have hblock :=
        ((inserted_layersText h header).append hbody).append
          (.refl (closingText { es3 := true } header closing))
      rwa [List.append_nil] at hblock

theorem inserted_layeredFrom (h : ∀ d, Text.Inserted (pieces d) (layer d) (layer' d))
    (trim first : Bool) :
    ∀ nodes : List Node, Text.Inserted ((declarationsAll nodes).flatMap pieces)
      (layeredFrom layer trim first nodes)
      (layeredFrom layer' trim first nodes)
  | [] => .nil
  | node :: nodes => by
      rw [layeredFrom, layeredFrom, declarationsAll_cons, List.flatMap_append]
      exact (inserted_layeredNode h trim first nodes.isEmpty node).append
        (inserted_layeredFrom h trim false nodes)

end

theorem inserted_layered (h : ∀ d, Text.Inserted (pieces d) (layer d) (layer' d))
    (nodes : List Node) :
    Text.Inserted ((declarationsAll nodes).flatMap pieces) (layered layer nodes)
      (layered layer' nodes) :=
  inserted_layeredFrom h false true nodes

end

end Output

end LetBlocks
