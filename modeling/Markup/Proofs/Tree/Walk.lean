import Markup.Proofs.Tree.Closing

/-!
# Walks that pass by the inside of some elements

A walk through nodes in document order goes into some of the elements and passes by what is inside
the others. Where no node occurs twice, it comes to the nodes with no element around them that it
passes by. Main statement: `Node.mem_walkAll_iff`.
-/

namespace Markup.Node

mutual

/-- The nodes that are come to, where it is known which elements are gone into. -/
def walk (enters : Element → Bool) : Node → List Node
  | .leaf piece => [.leaf piece]
  | .element elem children =>
      .element elem children :: if enters elem then walkAll enters children else []

def walkAll (enters : Element → Bool) : List Node → List Node
  | [] => []
  | node :: rest => walk enters node ++ walkAll enters rest

end

variable {enters : Element → Bool} {nodes : List Node}

theorem mem_walk_self (enters : Element → Bool) (node : Node) : node ∈ node.walk enters := by
  cases node <;> simp [walk]

theorem mem_walkAll {inner : Node} :
    inner ∈ walkAll enters nodes ↔ ∃ node ∈ nodes, inner ∈ node.walk enters := by
  induction nodes with
  | nil => simp [walkAll]
  | cons head rest ih => simp [walkAll, ih]

mutual

theorem inside_mem_walk {node inner : Node} {elem : Element} {children : List Node}
    (hmem : .element elem children ∈ node.walk enters) (henters : enters elem = true)
    (hinner : inner ∈ walkAll enters children) : inner ∈ node.walk enters := by
  cases node with
  | leaf piece => simp [walk] at hmem
  | element outer siblings =>
      rw [walk] at hmem ⊢
      rcases List.mem_cons.mp hmem with heq | hinside
      · obtain ⟨rfl, rfl⟩ := Node.element.inj heq
        rw [if_pos henters]
        exact List.mem_cons_of_mem _ hinner
      · split at hinside
        next houter =>
          rw [if_pos houter]
          exact List.mem_cons_of_mem _ (inside_mem_walkAll hinside henters hinner)
        next => cases hinside

/-- What is come to inside an element that is gone into is come to. -/
theorem inside_mem_walkAll {nodes : List Node} {inner : Node} {elem : Element}
    {children : List Node} (hmem : .element elem children ∈ walkAll enters nodes)
    (henters : enters elem = true) (hinner : inner ∈ walkAll enters children) :
    inner ∈ walkAll enters nodes := by
  cases nodes with
  | nil => cases hmem
  | cons node rest =>
      rcases List.mem_append.mp hmem with hfirst | hrest
      · exact List.mem_append_left _ (inside_mem_walk hfirst henters hinner)
      · exact List.mem_append_right _ (inside_mem_walkAll hrest henters hinner)

end

mutual

theorem walk_sublist (enters : Element → Bool) (node : Node) :
    (node.walk enters).Sublist node.preorder := by
  cases node with
  | leaf piece => exact List.Sublist.refl _
  | element elem children =>
      rw [walk, preorder]
      refine List.Sublist.cons_cons _ ?_
      split
      next => exact walkAll_sublist enters children
      next => exact List.nil_sublist _

/-- Nodes are come to in document order. -/
theorem walkAll_sublist (enters : Element → Bool) (nodes : List Node) :
    (walkAll enters nodes).Sublist (preorderAll nodes) := by
  cases nodes with
  | nil => exact List.Sublist.refl _
  | cons node rest => exact (walk_sublist enters node).append (walkAll_sublist enters rest)

end

mutual

theorem mem_walk_of_entered {node outer : Node} (hmem : node ∈ preorder outer)
    (hentered : ∀ elem children, .element elem children ∈ preorder outer →
      node ∈ preorderAll children → enters elem = true) : node ∈ outer.walk enters := by
  cases outer with
  | leaf piece => exact hmem
  | element elem children =>
      rw [walk]
      rcases List.mem_cons.mp hmem with rfl | hinside
      · exact List.mem_cons_self
      · rw [if_pos (hentered elem children (mem_preorder_self _) hinside)]
        exact List.mem_cons_of_mem _ (mem_walkAll_of_entered hinside fun inner inside hinner =>
          hentered inner inside (List.mem_cons_of_mem _ hinner))

theorem mem_walkAll_of_entered {nodes : List Node} {node : Node} (hmem : node ∈ preorderAll nodes)
    (hentered : ∀ elem children, .element elem children ∈ preorderAll nodes →
      node ∈ preorderAll children → enters elem = true) : node ∈ walkAll enters nodes := by
  cases nodes with
  | nil => cases hmem
  | cons head rest =>
      rcases List.mem_append.mp hmem with hfirst | hrest
      · exact List.mem_append_left _ (mem_walk_of_entered hfirst fun elem children helem =>
          hentered elem children (List.mem_append_left _ helem))
      · exact List.mem_append_right _ (mem_walkAll_of_entered hrest fun elem children helem =>
          hentered elem children (List.mem_append_right _ helem))

end

mutual

theorem entered_of_mem_walk {node outer : Node} (hnodup : (preorder outer).Nodup)
    (hmem : node ∈ outer.walk enters) {elem : Element} {children : List Node}
    (helem : .element elem children ∈ preorder outer) (hinside : node ∈ preorderAll children) :
    enters elem = true := by
  cases outer with
  | leaf piece => simp [preorder] at helem
  | element top siblings =>
      obtain ⟨hfresh, hsiblings⟩ := List.nodup_cons.mp hnodup
      have hbelow : node ∈ preorderAll siblings := by
        rcases List.mem_cons.mp helem with heq | hdeep
        · obtain ⟨rfl, rfl⟩ := Node.element.inj heq
          exact hinside
        · exact mem_preorderAll_of_mem hdeep hinside
      rw [walk] at hmem
      rcases List.mem_cons.mp hmem with rfl | hwalked
      · exact absurd hbelow hfresh
      · split at hwalked
        next htop =>
          rcases List.mem_cons.mp helem with heq | hdeep
          · obtain ⟨rfl, rfl⟩ := Node.element.inj heq
            exact htop
          · exact entered_of_mem_walkAll hsiblings hwalked hdeep hinside
        next => cases hwalked

theorem entered_of_mem_walkAll {nodes : List Node} {node : Node}
    (hnodup : (preorderAll nodes).Nodup) (hmem : node ∈ walkAll enters nodes) {elem : Element}
    {children : List Node} (helem : .element elem children ∈ preorderAll nodes)
    (hinside : node ∈ preorderAll children) :
    enters elem = true := by
  cases nodes with
  | nil => cases hmem
  | cons head rest =>
      obtain ⟨hhead, hrest, hdisjoint⟩ := List.nodup_append'.mp hnodup
      -- the node and the element around it are both within the first one or both behind it
      rcases List.mem_append.mp hmem with hin | hin
      · rcases List.mem_append.mp helem with hthere | hthere
        · exact entered_of_mem_walk hhead hin hthere hinside
        · exact absurd (mem_preorderAll_of_mem hthere hinside)
            (hdisjoint ((walk_sublist enters head).subset hin))
      · rcases List.mem_append.mp helem with hthere | hthere
        · exact absurd ((walkAll_sublist enters rest).subset hin)
            (hdisjoint (mem_preorder_of_mem hthere hinside))
        · exact entered_of_mem_walkAll hrest hin hthere hinside

end

/-- The nodes that are come to are those with no element around them that is passed by. -/
theorem mem_walkAll_iff {node : Node} (hnodup : (preorderAll nodes).Nodup) :
    node ∈ walkAll enters nodes ↔
    node ∈ preorderAll nodes ∧ ∀ elem children, .element elem children ∈ preorderAll nodes →
      node ∈ preorderAll children → enters elem = true :=
  ⟨fun hmem => ⟨(walkAll_sublist enters nodes).subset hmem,
    fun _ _ => entered_of_mem_walkAll hnodup hmem⟩, fun hthere =>
    mem_walkAll_of_entered hthere.1 hthere.2⟩

end Markup.Node
