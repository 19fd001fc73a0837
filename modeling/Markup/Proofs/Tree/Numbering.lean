import Mathlib.Data.List.Nodup
import Markup.Proofs.Tree.Extent

/-!
# The numbers of nodes

The nodes of a document are numbered in document order, from zero on and without gaps. So a table by
the number of a node holds at most one entry for each node.
-/

namespace Markup

/-- The numbers of nodes, read off as a listing. -/
def idListing : Listing Nat :=
  ⟨fun id _ => [id], fun piece => [piece.id], fun _ => []⟩

@[simp]
theorem idListing_opening (id : Nat) (tag : StartTag) : idListing.opening id tag = [id] := rfl

@[simp]
theorem idListing_leaf (piece : Leaf) : idListing.leaf piece = [piece.id] := rfl

@[simp]
theorem idListing_ending (close : Option EndTag) : idListing.ending close = [] := by
  cases close <;> rfl

namespace Node

mutual

theorem map_id_preorder (node : Node) : node.preorder.map id = idListing.node node := by
  cases node with
  | leaf piece => rfl
  | element elem children =>
      simp only [preorder, List.map_cons, map_id_preorderAll children, Listing.node,
        idListing_opening, idListing_ending, List.append_nil, List.singleton_append]
      rfl

theorem map_id_preorderAll (nodes : List Node) :
    (preorderAll nodes).map id = idListing.nodes nodes := by
  cases nodes with
  | nil => rfl
  | cons node rest =>
      simp only [preorderAll, List.map_append, map_id_preorder node, map_id_preorderAll rest,
        Listing.nodes]

end

/-- The numbers in a tree, in document order. -/
def ids (node : Node) : List Nat :=
  idListing.node node

def idsOfAll (nodes : List Node) : List Nat :=
  idListing.nodes nodes

@[simp]
theorem ids_leaf (piece : Leaf) : ids (.leaf piece) = [piece.id] := rfl

@[simp]
theorem ids_element (elem : Element) (children : List Node) :
    ids (.element elem children) = elem.id :: idsOfAll children := by
  simp [ids, idsOfAll, Listing.node]

@[simp]
theorem idsOfAll_nil : idsOfAll [] = [] := rfl

@[simp]
theorem idsOfAll_cons (node : Node) (rest : List Node) :
    idsOfAll (node :: rest) = ids node ++ idsOfAll rest := rfl

end Node

namespace Builder

/-- The nodes so far have the numbers below the next one. -/
def Numbered (builder : Builder) : Prop :=
  idListing.nesting builder.nesting = List.range builder.next

theorem Numbered.flush {builder : Builder} (hnumbered : builder.Numbered) :
    builder.flush.Numbered := by
  unfold Numbered at *
  rw [Listing.nesting_flush, hnumbered]
  unfold Builder.flush Listing.waiting
  cases builder.waiting with
  | nil => simp
  | cons c rest => simp [addLeaf, List.range_succ]

theorem Numbered.addLeaf {builder : Builder} (hnumbered : builder.Numbered) (kind : LeafKind)
    (raw : List Char) : (builder.addLeaf kind raw).Numbered := by
  unfold Numbered at *
  simp [Builder.addLeaf, Listing.nesting_append, Listing.node, hnumbered, List.range_succ]

theorem Numbered.prepare {builder prepared : Builder} {name : List Char}
    (hnumbered : builder.Numbered) (hprepare : builder.prepare name = .ok prepared) :
    prepared.Numbered := by
  have hflush := hnumbered.flush
  obtain ⟨-, rfl⟩ := Builder.prepare_eq_ok_iff.mp hprepare
  unfold Numbered at *
  rw [nesting_ready, Nesting.popImplied, Listing.nesting_popMany]
  exact hflush

theorem Numbered.startElement {builder : Builder} (hnumbered : builder.Numbered)
    (tag : StartTag) : (builder.startElement tag).Numbered := by
  unfold Numbered at *
  rw [Listing.nesting_startElement, hnumbered]
  unfold Builder.startElement
  dsimp only
  split <;> simp [List.range_succ]

theorem Numbered.addRawElement {builder : Builder} (hnumbered : builder.Numbered)
    (tag : StartTag) (content : List Char) (close : Option EndTag) :
    (builder.addRawElement tag content close).Numbered := by
  unfold Numbered at *
  rw [Listing.nesting_addRawElement, hnumbered]
  cases content with
  | nil => simp [Builder.addRawElement, Listing.rawContent, List.range_succ]
  | cons c rest =>
      simp [Builder.addRawElement, Builder.addLeaf, Listing.rawContent, List.range_succ]

theorem Numbered.endElement {builder : Builder} (hnumbered : builder.Numbered) (tag : EndTag) :
    (builder.endElement tag).Numbered := by
  cases hfound : builder.nesting.inside? tag.name with
  | none =>
      simp only [Builder.endElement, hfound]
      exact hnumbered
  | some count =>
      have hflush := hnumbered.flush
      unfold Numbered at *
      simp only [Builder.endElement, hfound]
      rw [Listing.nesting_pop _ _ _ _ (popMany_flush_stack_ne_nil hfound _),
        Listing.nesting_popMany, hflush]
      simp

theorem numbered_stable : Stable Numbered where
  start := rfl
  hold _ _ hnumbered := hnumbered
  flush := Numbered.flush
  addLeaf _ _ hnumbered := hnumbered.addLeaf _ _
  prepare := Numbered.prepare
  startElement _ hnumbered := hnumbered.startElement _
  addRawElement _ hnumbered := hnumbered.addRawElement _ _ _
  endElement _ hnumbered := hnumbered.endElement _

end Builder

namespace Document

/-- The nodes of a document have the numbers from zero on, in document order. -/
theorem ids_of_parse {text : List Char} {document : Document}
    (hparse : parse text = .ok document) :
    Node.idsOfAll document.children = List.range document.count := by
  obtain ⟨builder, hnumbered, hchildren, hcount⟩ := Builder.numbered_stable.of_parse hparse
  rw [hchildren, hcount, ← hnumbered]
  exact Listing.nodes_finish _ _ _

theorem nodup_ids_of_parse {text : List Char} {document : Document}
    (hparse : parse text = .ok document) : (Node.idsOfAll document.children).Nodup := by
  rw [ids_of_parse hparse]
  exact List.nodup_range

theorem map_id_of_parse {text : List Char} {document : Document}
    (hparse : parse text = .ok document) :
    (Node.preorderAll document.children).map Node.id = List.range document.count := by
  rw [Node.map_id_preorderAll]
  exact ids_of_parse hparse

/-- No node of a document occurs in it twice. -/
theorem nodup_preorderAll_of_parse {text : List Char} {document : Document}
    (hparse : parse text = .ok document) : (Node.preorderAll document.children).Nodup :=
  List.Nodup.of_map Node.id (map_id_of_parse hparse ▸ List.nodup_range)

end Document

end Markup
