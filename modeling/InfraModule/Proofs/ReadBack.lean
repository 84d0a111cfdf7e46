import InfraModule.Proofs.Drafting
import InfraModule.Proofs.Filing
import InfraModule.Proofs.PassFrame

namespace InfraModule

theorem getElem?_append_cases {α : Type} {as bs : List α} {k : Nat} {a : α}
    (h : (as ++ bs)[k]? = some a) : as[k]? = some a ∨ ∃ j, k = as.length + j ∧ bs[j]? = some a := by
  by_cases hk : k < as.length
  · rw [List.getElem?_append_left hk] at h
    exact .inl h
  · rw [List.getElem?_append_right (Nat.le_of_not_lt hk)] at h
    exact .inr ⟨k - as.length, by omega, h⟩

theorem getElem?_singleton {α : Type} {a b : α} {k : Nat} (h : [a][k]? = some b) :
    k = 0 ∧ a = b := by
  cases k with
  | zero => simpa using h
  | succ k => simp at h

namespace Value

mutual

def nodes : Value → List Value
  | .literal text => [.literal text]
  | .list items => nodesOfItems items ++ [.list items]
  | .object fields => nodesOfFields fields ++ [.object fields]
  | .reference name => [.reference name]
  | .getAttribute name attr => [.getAttribute name attr]
  | .conditionReference name => [.conditionReference name]
  | .findInMap mapping top second =>
    nodes top ++ nodes second ++ [.findInMap mapping top second]

def nodesOfItems : List Value → List Value
  | [] => []
  | v :: vs => nodes v ++ nodesOfItems vs

def nodesOfFields : List (String × Value) → List Value
  | [] => []
  | (_, v) :: vs => nodes v ++ nodesOfFields vs

end

def rootAt (v : Value) (first : Nat) : ExprId := ⟨first + v.nodes.length - 1⟩

def itemsAt : List Value → Nat → List ExprId
  | [], _ => []
  | v :: vs, first => v.rootAt first :: itemsAt vs (first + v.nodes.length)

def fieldsAt : List (String × Value) → Nat → List (String × ExprId)
  | [], _ => []
  | (name, v) :: vs, first => (name, v.rootAt first) :: fieldsAt vs (first + v.nodes.length)

mutual

/-- The expressions for the nodes of a value, in the order of the nodes, when the first one stands
at `first`. -/
def layout : Value → Nat → List ExprKind
  | .literal text, _ => [.literal text]
  | .list items, first => layoutOfItems items first ++ [.list (itemsAt items first)]
  | .object fields, first =>
    layoutOfFields fields first ++ [.object (.ofList (fieldsAt fields first))]
  | .reference name, _ => [.reference name]
  | .getAttribute name attr, _ => [.getAttribute name attr]
  | .conditionReference name, _ => [.conditionReference name]
  | .findInMap mapping top second, first =>
    layout top first ++ layout second (first + top.nodes.length) ++
      [.findInMap mapping (top.rootAt first) (second.rootAt (first + top.nodes.length))]

def layoutOfItems : List Value → Nat → List ExprKind
  | [], _ => []
  | v :: vs, first => layout v first ++ layoutOfItems vs (first + v.nodes.length)

def layoutOfFields : List (String × Value) → Nat → List ExprKind
  | [], _ => []
  | (_, v) :: vs, first => layout v first ++ layoutOfFields vs (first + v.nodes.length)

end

mutual

/-- A value in which no object gives a name twice: the name stands where it was given first, with
the value that was given last. -/
def merged : Value → Value
  | .literal text => .literal text
  | .list items => .list (mergedItems items)
  | .object fields => .object (Registry.merge (mergedFields fields))
  | .reference name => .reference name
  | .getAttribute name attr => .getAttribute name attr
  | .conditionReference name => .conditionReference name
  | .findInMap mapping top second => .findInMap mapping (merged top) (merged second)

def mergedItems : List Value → List Value
  | [] => []
  | v :: vs => merged v :: mergedItems vs

def mergedFields : List (String × Value) → List (String × Value)
  | [] => []
  | (name, v) :: vs => (name, merged v) :: mergedFields vs

end

theorem nodes_pos (v : Value) : 0 < v.nodes.length := by
  cases v <;> simp only [nodes, List.length_append, List.length_singleton] <;> omega

theorem rootAt_eq {v : Value} {first last : Nat} (h : last + 1 = first + v.nodes.length) :
    v.rootAt first = ⟨last⟩ := by
  rw [rootAt, ← h, Nat.add_sub_cancel]

theorem rootAt_of_nodes {v whole : Value} {parts : List Value} (h : v.nodes = parts ++ [whole])
    {first : Nat} : v.rootAt first = ⟨first + parts.length⟩ := by
  rw [rootAt, h, List.length_append]
  rfl

mutual

theorem length_layout (v : Value) (first : Nat) : (v.layout first).length = v.nodes.length := by
  match v with
  | .literal _ | .reference _ | .getAttribute _ _ | .conditionReference _ => rfl
  | .list items => simp [layout, nodes, length_layoutOfItems items first]
  | .object fields => simp [layout, nodes, length_layoutOfFields fields first]
  | .findInMap mapping top second =>
    simp [layout, nodes, length_layout top first, length_layout second (first + top.nodes.length)]

theorem length_layoutOfItems (vs : List Value) (first : Nat) :
    (layoutOfItems vs first).length = (nodesOfItems vs).length := by
  match vs with
  | [] => rfl
  | v :: vs =>
    simp [layoutOfItems, nodesOfItems, length_layout v first,
      length_layoutOfItems vs (first + v.nodes.length)]

theorem length_layoutOfFields (vs : List (String × Value)) (first : Nat) :
    (layoutOfFields vs first).length = (nodesOfFields vs).length := by
  match vs with
  | [] => rfl
  | (name, v) :: vs =>
    simp [layoutOfFields, nodesOfFields, length_layout v first,
      length_layoutOfFields vs (first + v.nodes.length)]

end

end Value

namespace Tree

variable {t t' : Tree} {location : Option Location} {first : Nat} {kinds kinds' : List ExprKind}

def withKinds (t : Tree) (location : Option Location) (kinds : List ExprKind) : Tree :=
  { t with expressions :=
      t.expressions ++ (kinds.map fun kind ↦ (⟨root, location, none, kind⟩ : Expression)).toArray }

@[simp]
theorem withKinds_nil (t : Tree) (location : Option Location) : t.withKinds location [] = t := by
  simp [withKinds]

@[simp]
theorem size_withKinds (t : Tree) (location : Option Location) (kinds : List ExprKind) :
    (t.withKinds location kinds).expressions.size = t.expressions.size + kinds.length := by
  simp [withKinds]

theorem withKinds_append (t : Tree) (location : Option Location) (kinds kinds' : List ExprKind) :
    t.withKinds location (kinds ++ kinds') =
      (t.withKinds location kinds).withKinds location kinds' := by
  simp [withKinds]

theorem addExpression_eq (t : Tree) (kind : ExprKind) (location : Option Location) :
    t.addExpression kind location = (⟨t.expressions.size⟩, t.withKinds location [kind]) := by
  simp [addExpression, withKinds]

def Carries (t : Tree) (first : Nat) (kinds : List ExprKind) : Prop :=
  ∀ k kind, kinds[k]? = some kind → ∃ x, t.expr? ⟨first + k⟩ = some x ∧ x.kind = kind

theorem carries_append : t.Carries first (kinds ++ kinds') ↔
    t.Carries first kinds ∧ t.Carries (first + kinds.length) kinds' := by
  constructor
  · intro h
    refine ⟨fun k kind hk ↦ h k kind ?_, fun k kind hk ↦ ?_⟩
    · rw [List.getElem?_append_left (List.getElem?_eq_some_iff.mp hk).1, hk]
    · rw [Nat.add_assoc]
      exact h _ kind (by rw [List.getElem?_append_right (Nat.le_add_right _ _),
        Nat.add_sub_cancel_left, hk])
  · intro ⟨h, h'⟩ k kind hk
    rcases getElem?_append_cases hk with hk | ⟨j, rfl, hj⟩
    · exact h k kind hk
    · rw [← Nat.add_assoc]
      exact h' j kind hj

theorem carries_singleton {kind : ExprKind} : t.Carries first [kind] ↔
    ∃ x, t.expr? ⟨first⟩ = some x ∧ x.kind = kind := by
  constructor
  · exact fun h ↦ h 0 kind rfl
  · intro h k kind' hk
    obtain ⟨rfl, rfl⟩ := getElem?_singleton hk
    exact h

theorem carries_withKinds (t : Tree) (location : Option Location) (kinds : List ExprKind) :
    (t.withKinds location kinds).Carries t.expressions.size kinds := by
  intro k kind hk
  refine ⟨⟨root, location, none, kind⟩, ?_, rfl⟩
  rw [expr?, withKinds, Array.getElem?_append_right (Nat.le_add_right _ _),
    Nat.add_sub_cancel_left]
  simp [hk]

theorem Carries.le_size (h : t.Carries first kinds) (hne : 0 < kinds.length) :
    first + kinds.length ≤ t.expressions.size := by
  obtain ⟨x, hx, -⟩ := h (kinds.length - 1) _ (List.getElem?_eq_getElem (by omega))
  have hlt : first + (kinds.length - 1) < t.expressions.size := (Array.getElem?_eq_some_iff.mp hx).1
  omega

def KeepsKinds (t t' : Tree) : Prop :=
  ∀ e x, t.expr? e = some x → ∃ x', t'.expr? e = some x' ∧ x'.kind = x.kind

theorem KeepsKinds.refl (t : Tree) : t.KeepsKinds t := fun _ x hx ↦ ⟨x, hx, rfl⟩

theorem KeepsKinds.trans {t'' : Tree} (h : t.KeepsKinds t') (h' : t'.KeepsKinds t'') :
    t.KeepsKinds t'' := by
  intro e x hx
  obtain ⟨x', hx', hk⟩ := h e x hx
  obtain ⟨x'', hx'', hk'⟩ := h' e x' hx'
  exact ⟨x'', hx'', hk'.trans hk⟩

theorem Carries.keepsKinds (h : t.Carries first kinds) (hk : t.KeepsKinds t') :
    t'.Carries first kinds := by
  intro k kind hkind
  obtain ⟨x, hx, rfl⟩ := h k kind hkind
  exact hk _ x hx

theorem Grows.keepsKinds (h : t.Grows t') : t.KeepsKinds t' := by
  intro e x hx
  obtain ⟨x', hx', hg⟩ := h.expr e x hx
  exact ⟨x', hx', hg.kind⟩

theorem Extends.keepsKinds (h : Extends location t t') : t.KeepsKinds t' := by
  intro e x hx
  obtain ⟨owner, hx'⟩ := h.old e x hx
  exact ⟨_, hx', rfl⟩

/-- What an expression says, written out, unless it holds more than `depth` wholes inside one
another or names a part that is not there. -/
def readWithin (t : Tree) : Nat → ExprId → Option Value
  | 0, _ => none
  | depth + 1, e =>
    (t.expr? e).bind fun x ↦
      match x.kind with
      | .literal text => some (.literal text)
      | .list items => (items.mapM (t.readWithin depth)).map .list
      | .object fields => (fields.entries.mapM fun field ↦
          (t.readWithin depth field.2).map (field.1, ·)).map .object
      | .reference name => some (.reference name)
      | .getAttribute name attr => some (.getAttribute name attr)
      | .conditionReference name => some (.conditionReference name)
      | .findInMap mapping top second =>
        (t.readWithin depth top).bind fun top ↦
          (t.readWithin depth second).map (.findInMap mapping top)

def readBack (t : Tree) (e : ExprId) : Option Value := t.readWithin t.expressions.size e

end Tree

namespace Value

open InfraModule.Tree

section Store

variable (location : Option Location)

mutual

theorem store_eq (v : Value) (t : Tree) : v.store location t =
    (v.rootAt t.expressions.size, t.withKinds location (v.layout t.expressions.size)) := by
  match v with
  | .literal _ | .reference _ | .getAttribute _ _ | .conditionReference _ =>
    exact addExpression_eq t _ location
  | .list items =>
    rw [store, storeItems_eq items t]
    simp [addExpression_eq, layout, withKinds_append, rootAt, nodes, length_layoutOfItems]
  | .object fields =>
    rw [store, storeFields_eq fields t]
    simp [addExpression_eq, layout, withKinds_append, rootAt, nodes, length_layoutOfFields]
  | .findInMap mapping top second =>
    rw [store, store_eq top t]
    simp only
    rw [store_eq second]
    simp [addExpression_eq, layout, withKinds_append, rootAt, nodes, length_layout, Nat.add_assoc]
    omega

theorem storeItems_eq (vs : List Value) (t : Tree) : storeItems location vs t =
    (itemsAt vs t.expressions.size,
      t.withKinds location (layoutOfItems vs t.expressions.size)) := by
  match vs with
  | [] => simp [storeItems, itemsAt, layoutOfItems]
  | v :: vs =>
    rw [storeItems, store_eq v t]
    simp only
    rw [storeItems_eq vs]
    simp [itemsAt, layoutOfItems, withKinds_append, length_layout]

theorem storeFields_eq (vs : List (String × Value)) (t : Tree) : storeFields location vs t =
    (fieldsAt vs t.expressions.size,
      t.withKinds location (layoutOfFields vs t.expressions.size)) := by
  match vs with
  | [] => simp [storeFields, fieldsAt, layoutOfFields]
  | (name, v) :: vs =>
    rw [storeFields, store_eq v t]
    simp only
    rw [storeFields_eq vs]
    simp [fieldsAt, layoutOfFields, withKinds_append, length_layout]

end

end Store

section Carried

variable {t : Tree}

theorem exists_expr_rootAt {v : Value} {first : Nat} {parts : List ExprKind} {kind : ExprKind}
    (h : t.Carries first (v.layout first)) (hv : v.layout first = parts ++ [kind]) :
    t.Carries first parts ∧ ∃ x, t.expr? (v.rootAt first) = some x ∧ x.kind = kind := by
  have hlength : first + parts.length + 1 = first + v.nodes.length := by
    rw [← v.length_layout first, hv, List.length_append, List.length_singleton, Nat.add_assoc]
  rw [hv, carries_append, carries_singleton] at h
  rwa [rootAt_eq hlength]

mutual

theorem readWithin_rootAt (v : Value) {first depth : Nat} (h : t.Carries first (v.layout first))
    (hdepth : v.nodes.length ≤ depth) :
    t.readWithin depth (v.rootAt first) = some v.merged := by
  obtain ⟨depth, rfl⟩ : ∃ n, depth = n + 1 := ⟨depth - 1, by have hpos := v.nodes_pos; omega⟩
  match v with
  | .literal _ | .reference _ | .getAttribute _ _ | .conditionReference _ =>
    obtain ⟨-, x, hx, hk⟩ := exists_expr_rootAt h (List.nil_append _).symm
    simp [readWithin, hx, hk, merged]
  | .list items =>
    obtain ⟨hparts, x, hx, hk⟩ := exists_expr_rootAt h rfl
    have hitems : (itemsAt items first).mapM (t.readWithin depth) = _ :=
      mapM_itemsAt items hparts (by simpa [nodes] using hdepth)
    simp [readWithin, hx, hk, hitems, merged]
  | .object fields =>
    obtain ⟨hparts, x, hx, hk⟩ := exists_expr_rootAt h rfl
    have hfields := forall₂_fieldsAt fields hparts
      (show (nodesOfFields fields).length ≤ depth by simpa [nodes] using hdepth)
    simp [readWithin, hx, hk, Registry.entries_ofList, Registry.mapM_merge hfields, merged]
  | .findInMap mapping top second =>
    obtain ⟨hparts, x, hx, hk⟩ := exists_expr_rootAt h rfl
    obtain ⟨htop, hsecond⟩ := carries_append.mp hparts
    rw [length_layout] at hsecond
    simp only [nodes, List.length_append, List.length_singleton] at hdepth
    have htop : t.readWithin depth (top.rootAt first) = _ := readWithin_rootAt top htop (by omega)
    have hsecond : t.readWithin depth _ = _ := readWithin_rootAt second hsecond (by omega)
    simp [readWithin, hx, hk, htop, hsecond, merged]

theorem mapM_itemsAt (vs : List Value) {first depth : Nat}
    (h : t.Carries first (layoutOfItems vs first)) (hdepth : (nodesOfItems vs).length ≤ depth) :
    (itemsAt vs first).mapM (t.readWithin depth) = some (mergedItems vs) := by
  match vs with
  | [] => rfl
  | v :: vs =>
    obtain ⟨hfirst, hrest⟩ := carries_append.mp h
    rw [length_layout] at hrest
    simp only [nodesOfItems, List.length_append] at hdepth
    rw [itemsAt, List.mapM_cons, readWithin_rootAt v hfirst (by omega),
      mapM_itemsAt vs hrest (by omega)]
    rfl

theorem forall₂_fieldsAt (vs : List (String × Value)) {first depth : Nat}
    (h : t.Carries first (layoutOfFields vs first)) (hdepth : (nodesOfFields vs).length ≤ depth) :
    List.Forall₂ (fun a b ↦ a.1 = b.1 ∧ t.readWithin depth a.2 = some b.2) (fieldsAt vs first)
      (mergedFields vs) := by
  match vs with
  | [] => exact .nil
  | (name, v) :: vs =>
    obtain ⟨hfirst, hrest⟩ := carries_append.mp h
    rw [length_layout] at hrest
    simp only [nodesOfFields, List.length_append] at hdepth
    exact .cons ⟨rfl, readWithin_rootAt v hfirst (by omega)⟩
      (forall₂_fieldsAt vs hrest (by omega))

end

mutual

theorem carries_node (v : Value) {first k : Nat} {node : Value}
    (h : t.Carries first (v.layout first)) (hk : v.nodes[k]? = some node) :
    ∃ start, t.Carries start (node.layout start) ∧ first + k + 1 = start + node.nodes.length := by
  match v with
  | .literal _ | .reference _ | .getAttribute _ _ | .conditionReference _ =>
    obtain ⟨rfl, rfl⟩ := getElem?_singleton hk
    exact ⟨first, h, rfl⟩
  | .list items =>
    rcases getElem?_append_cases hk with hk | ⟨j, rfl, hj⟩
    · exact carries_node_items items (carries_append.mp h).1 hk
    · obtain ⟨rfl, rfl⟩ := getElem?_singleton hj
      exact ⟨first, h, by simp [nodes, Nat.add_assoc]⟩
  | .object fields =>
    rcases getElem?_append_cases hk with hk | ⟨j, rfl, hj⟩
    · exact carries_node_fields fields (carries_append.mp h).1 hk
    · obtain ⟨rfl, rfl⟩ := getElem?_singleton hj
      exact ⟨first, h, by simp [nodes, Nat.add_assoc]⟩
  | .findInMap mapping top second =>
    rcases getElem?_append_cases hk with hk | ⟨j, rfl, hj⟩
    · obtain ⟨htop, hsecond⟩ := carries_append.mp (carries_append.mp h).1
      rw [length_layout] at hsecond
      rcases getElem?_append_cases hk with hk | ⟨j, rfl, hj⟩
      · exact carries_node top htop hk
      · rw [← Nat.add_assoc]
        exact carries_node second hsecond hj
    · obtain ⟨rfl, rfl⟩ := getElem?_singleton hj
      exact ⟨first, h, by simp [nodes, Nat.add_assoc]⟩

theorem carries_node_items (vs : List Value) {first k : Nat} {node : Value}
    (h : t.Carries first (layoutOfItems vs first)) (hk : (nodesOfItems vs)[k]? = some node) :
    ∃ start, t.Carries start (node.layout start) ∧ first + k + 1 = start + node.nodes.length := by
  match vs with
  | [] => cases hk
  | v :: vs =>
    obtain ⟨hfirst, hrest⟩ := carries_append.mp h
    rw [length_layout] at hrest
    rcases getElem?_append_cases hk with hk | ⟨j, rfl, hj⟩
    · exact carries_node v hfirst hk
    · rw [← Nat.add_assoc]
      exact carries_node_items vs hrest hj

theorem carries_node_fields (vs : List (String × Value)) {first k : Nat} {node : Value}
    (h : t.Carries first (layoutOfFields vs first)) (hk : (nodesOfFields vs)[k]? = some node) :
    ∃ start, t.Carries start (node.layout start) ∧ first + k + 1 = start + node.nodes.length := by
  match vs with
  | [] => cases hk
  | (name, v) :: vs =>
    obtain ⟨hfirst, hrest⟩ := carries_append.mp h
    rw [length_layout] at hrest
    rcases getElem?_append_cases hk with hk | ⟨j, rfl, hj⟩
    · exact carries_node v hfirst hk
    · rw [← Nat.add_assoc]
      exact carries_node_fields vs hrest hj

end

theorem readBack_rootAt {v : Value} {first : Nat} (h : t.Carries first (v.layout first)) :
    t.readBack (v.rootAt first) = some v.merged := by
  have hsize := h.le_size (by rw [length_layout]; exact v.nodes_pos)
  rw [length_layout] at hsize
  exact v.readWithin_rootAt h (by omega)

theorem readBack_node {v : Value} {first k : Nat} {node : Value}
    (h : t.Carries first (v.layout first)) (hk : v.nodes[k]? = some node) :
    t.readBack ⟨first + k⟩ = some node.merged := by
  obtain ⟨start, hstart, hend⟩ := carries_node v h hk
  rw [← rootAt_eq hend]
  exact readBack_rootAt hstart

end Carried

end Value

namespace Draft

inductive Move
  | store (v : Value)
  | place (parent : DeclId) (name : String) (kind : DeclKind)
  | perform (s : Statement)

def move (d : Draft) : Move → Draft
  | .store v => { d with tree := (v.store (some d.nextLocation) d.tree).2 }
  | .place parent name kind => (d.place parent name kind).2
  | .perform s => (d.perform s).2

theorem keepsKinds_place (d : Draft) (parent : DeclId) (name : String) (kind : DeclKind) :
    d.tree.KeepsKinds (d.place parent name kind).2.tree := by
  have h := d.tree.reowned_addDeclaration parent name (some d.nextLocation) kind
  exact (h.extends none).keepsKinds

theorem keepsKinds_perform (d : Draft) (s : Statement) :
    d.tree.KeepsKinds (d.perform s).2.tree := by
  cases s with
  | pseudoParameters =>
    change d.tree.KeepsKinds d.addPseudoParameters.tree
    unfold addPseudoParameters
    generalize Vocabulary.pseudoParameters = ps
    induction ps generalizing d with
    | nil => exact .refl d.tree
    | cons p ps ih => exact (d.keepsKinds_place _ _ _).trans (ih _)
  | declare name item =>
    have hstored := Tree.stored_store (some d.nextLocation) item d.tree
    exact hstored.grown.keepsKinds.trans
      (keepsKinds_place { d with tree := (item.store (some d.nextLocation) d.tree).2 } _ _ _)
  | beginGroup name => exact d.keepsKinds_place _ _ _
  | endGroup => exact .refl d.tree

theorem keepsKinds_moves (d : Draft) (moves : List Move) :
    d.tree.KeepsKinds (moves.foldl move d).tree := by
  induction moves generalizing d with
  | nil => exact .refl d.tree
  | cons m moves ih =>
    refine Tree.KeepsKinds.trans ?_ (ih (d.move m))
    cases m with
    | store v => exact (v.stored_store _ d.tree).grown.keepsKinds
    | place parent name kind => exact d.keepsKinds_place parent name kind
    | perform s => exact d.keepsKinds_perform s

/-- A value is stored as one expression for each of its nodes, parts before wholes, at the end of
the tree. Whatever is drafted and analysed afterwards, each of them reads as the node that it was
stored for, but that an object has each name once. -/
theorem stored_value_reads_back (d : Draft) (v : Value) (moves : List Move) (log : Log)
    (passes : List Pass) :
    let first := d.tree.expressions.size
    let stored := v.store (some d.nextLocation) d.tree
    let drafted := (moves.foldl move { d with tree := stored.2 }).tree
    let later := (Workspace.run ⟨drafted, log⟩ passes).tree
    stored.2.declarations = d.tree.declarations ∧
    stored.2.expressions.toList = d.tree.expressions.toList ++
      (v.layout first).map (fun kind ↦ ⟨Tree.root, some d.nextLocation, none, kind⟩) ∧
    (v.layout first).length = v.nodes.length ∧
    stored.1.index + 1 = first + v.nodes.length ∧
    (∀ k node, v.nodes[k]? = some node → later.readBack ⟨first + k⟩ = some node.merged) ∧
    later.readBack stored.1 = some v.merged := by
  intro first stored drafted later
  have hstored : stored = (v.rootAt first, d.tree.withKinds _ (v.layout first)) :=
    v.store_eq _ d.tree
  have hkeeps : stored.2.KeepsKinds later :=
    (keepsKinds_moves { d with tree := stored.2 } moves).trans
      (Workspace.grows_run ⟨drafted, log⟩ passes).keepsKinds
  have hcarries : later.Carries first (v.layout first) := by
    rw [hstored] at hkeeps
    exact (Tree.carries_withKinds d.tree _ _).keepsKinds hkeeps
  refine ⟨by rw [hstored]; rfl, by simp [hstored, Tree.withKinds], v.length_layout first, ?_, ?_,
    ?_⟩
  · have hpos := v.nodes_pos
    simp only [hstored, Value.rootAt]
    omega
  · intro k node hk
    exact Value.readBack_node hcarries hk
  · rw [hstored]
    exact Value.readBack_rootAt hcarries

end Draft

end InfraModule
