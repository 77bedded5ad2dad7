import AccessPolicy.Proofs.Graph.Placement
import Mathlib.Data.List.Induction

/-!
# Hashed tables — nodes found by their hash

Beside its nodes a table keeps the positions of those that have the same hash.  A node is looked for
among these alone, and compared part by part.  Hashes may collide as they like: what is found, and
where a new node goes, is what a search through the whole table gives.
-/

namespace AccessPolicy

/-! ## Equality and hashes of nodes -/

/-- A value that goes into a hash. -/
inductive HashInput where
  | variant (n : Nat)
  | flag (b : Bool)
  | word (w : UInt64)
  | text (s : String)
  | index (i : NodeIndex)
deriving DecidableEq, Repr

/-- A hash of what goes into it, one value after another. -/
abbrev Hasher := List HashInput → UInt64

namespace Node

/-- Are the nodes of one kind, with the same parts?  Numbers are compared by their bits, which are
also what goes into the hash. -/
def same : Node → Node → Bool
  | .null, .null => true
  | .boolean a, .boolean b => a == b
  | .number a, .number b => a.bits == b.bits
  | .string a, .string b => a == b
  | .root a, .root b => a == b
  | .property receiver member, .property receiver' member' =>
    receiver == receiver' && member == member'
  | .arrayItem receiver index, .arrayItem receiver' index' =>
    receiver == receiver' && index == index'
  | .binary op left right, .binary op' left' right' => op == op' && left == left' && right == right'
  | .unary op operand, .unary op' operand' => op == op' && operand == operand'
  | .is concept operand, .is concept' operand' => concept == concept' && operand == operand'
  | _, _ => false

/-- The parts of a node as they go into its hash. -/
def hashedParts : Node → List HashInput
  | .null => []
  | .boolean b => [.flag b]
  | .number x => [.word x.bits]
  | .string s => [.text s]
  | .root r => [.variant r.ctorIdx]
  | .property receiver member => [.index receiver, .text member]
  | .arrayItem receiver index => [.index receiver, .index index]
  | .binary op left right => [.variant op.ctorIdx, .index left, .index right]
  | .unary op operand => [.variant op.ctorIdx, .index operand]
  | .is concept operand => [.text concept, .index operand]

/-- The hash of the kind of a node and its parts. -/
def structuralHash (hash : Hasher) (n : Node) : UInt64 :=
  hash (.variant n.ctorIdx :: n.hashedParts)

theorem same_iff {m n : Node} : m.same n = true ↔ m = n := by
  have hbits {a b : Binary64} : a.bits = b.bits ↔ a = b := by
    cases a
    cases b
    simp
  -- nodes of two kinds are neither the same nor equal
  cases m <;> cases n <;> simp [same, hbits, and_assoc]

/-- What is the same has the same hash. -/
theorem structuralHash_of_same {m n : Node} (h : m.same n = true) (hash : Hasher) :
    m.structuralHash hash = n.structuralHash hash := by
  rw [same_iff.mp h]

end Node

/-! ## Tables -/

/-- Nodes in the order of their slots, and the positions of those that have the same hash. -/
structure HashedTable where
  nodes : NodeTable := []
  buckets : Std.HashMap UInt64 (List Nat) := ∅

namespace HashedTable

/-- The index of the first node in the bucket that is the same as this one.  Every position of a
bucket is one of the table, see `Bucketed.lt_length`. -/
def find? (t : HashedTable) (hashed : UInt64) (n : Node) : Option NodeIndex := do
  let positions ← t.buckets[hashed]?
  ((positions.filterMap (t.nodes[·]?)).find? (·.node.same n)).map (·.index)

/-- A new node at the end, and its position at the end of its bucket. -/
def push (t : HashedTable) (hashed : UInt64) (n : TypedNode) (position : Nat) : HashedTable where
  nodes := t.nodes ++ [n]
  buckets := t.buckets.alter hashed fun positions? => some (positions?.getD [] ++ [position])

/-- The index of an equal node, or a new entry at the end. -/
def place (hash : Hasher) (kind : TableKind) (node : Node) (type : DataType) (t : HashedTable) :
    NodeIndex × HashedTable :=
  let hashed := node.structuralHash hash
  match t.find? hashed node with
  | some index => (index, t)
  | none =>
    let position := t.nodes.length
    let index := kind.indexAt position
    (index, t.push hashed ⟨index, node, type⟩ position)

/-! ## Buckets -/

variable {hash : Hasher} {t : HashedTable}

/-- The positions of the nodes with this hash, in order. -/
def positions (hash : Hasher) (nodes : NodeTable) (hashed : UInt64) : List Nat :=
  nodes.findIdxs fun n => n.node.structuralHash hash == hashed

/-- Every bucket has the positions of the nodes with its hash, all of them and no others. -/
def Bucketed (hash : Hasher) (t : HashedTable) : Prop :=
  ∀ hashed : UInt64, t.buckets[hashed]?.getD [] = positions hash t.nodes hashed

theorem bucketed_empty (hash : Hasher) : Bucketed hash {} := by
  intro hashed
  rw [Std.HashMap.getElem?_empty]
  rfl

theorem positions_append_singleton (hash : Hasher) (nodes : NodeTable) (n : TypedNode)
    (hashed : UInt64) : positions hash (nodes ++ [n]) hashed =
      positions hash nodes hashed ++
        if n.node.structuralHash hash = hashed then [nodes.length] else [] := by
  unfold positions
  rw [List.findIdxs_append, List.findIdxs_singleton, Nat.zero_add]
  simp only [beq_iff_eq]

/-- The positions of nodes lead to these nodes. -/
theorem filterMap_positions (hash : Hasher) (nodes : NodeTable) (hashed : UInt64) :
    (positions hash nodes hashed).filterMap (nodes[·]?) =
      nodes.filter fun n => n.node.structuralHash hash == hashed := by
  induction nodes using List.reverseRecOn with
  | nil => rfl
  | append_singleton nodes n ih =>
    have hold : ∀ p ∈ positions hash nodes hashed, (nodes ++ [n])[p]? = nodes[p]? := by
      intro p hp
      exact List.getElem?_append_left (List.lt_add_of_mem_findIdxs p hp)
    rw [positions_append_singleton, List.filterMap_append, List.filterMap_congr hold, ih,
      List.filter_append]
    -- the last node is in the bucket of its own hash, at the old length
    by_cases hn : n.node.structuralHash hash = hashed
    · simp [hn]
    · simp [hn]

theorem Bucketed.eq_positions (h : t.Bucketed hash) {hashed : UInt64} {bucket : List Nat}
    (hb : t.buckets[hashed]? = some bucket) : bucket = positions hash t.nodes hashed := by
  rw [← h hashed, hb, Option.getD_some]

/-- No look-up leaves the table. -/
theorem Bucketed.lt_length (h : t.Bucketed hash) {hashed : UInt64} {bucket : List Nat}
    (hb : t.buckets[hashed]? = some bucket) : ∀ p ∈ bucket, p < t.nodes.length := by
  intro p hp
  rw [h.eq_positions hb] at hp
  exact List.lt_add_of_mem_findIdxs p hp

/-- Among the nodes of one hash, the first that is the same as a node of this hash is the first of
all nodes that equals it. -/
theorem find?_filter_hash (hash : Hasher) (nodes : NodeTable) (n : Node) :
    (nodes.filter fun m => m.node.structuralHash hash == n.structuralHash hash).find?
      (·.node.same n) = nodes.find? (·.node = n) := by
  rw [List.find?_filter]
  congr 1
  funext m
  apply decide_eq_decide.mpr
  constructor
  · rintro ⟨-, hsame⟩
    exact Node.same_iff.mp hsame
  · intro hm
    have hsame := Node.same_iff.mpr hm
    exact ⟨beq_iff_eq.mpr (Node.structuralHash_of_same hsame hash), hsame⟩

/-- A look-up by hash finds what a search through all nodes finds. -/
theorem Bucketed.find?_eq (h : t.Bucketed hash) (n : Node) :
    t.find? (n.structuralHash hash) n = (t.nodes.find? (·.node = n)).map (·.index) := by
  rw [← find?_filter_hash hash, ← filterMap_positions]
  unfold find?
  cases hb : t.buckets[n.structuralHash hash]? with
  | none =>
    -- there is no bucket where no node has the hash
    rw [← h, hb]
    rfl
  | some bucket =>
    rw [← h.eq_positions hb]
    rfl

theorem Bucketed.push (h : t.Bucketed hash) (n : TypedNode) :
    (t.push (n.node.structuralHash hash) n t.nodes.length).Bucketed hash := by
  intro hashed
  show (t.buckets.alter _ _)[hashed]?.getD [] = positions hash (t.nodes ++ [n]) hashed
  rw [Std.HashMap.getElem?_alter, positions_append_singleton, ← h hashed]
  -- only the bucket of the new node's hash changes
  by_cases hn : n.node.structuralHash hash = hashed
  · rw [if_pos (beq_iff_eq.mpr hn), if_pos hn, hn]
    rfl
  · rw [if_neg (mt beq_iff_eq.mp hn), if_neg hn, List.append_nil]

/-- Placing a node by its hash acts on the nodes as placing it by a search, and keeps the buckets
right. -/
theorem Bucketed.place (h : t.Bucketed hash) (kind : TableKind) (n : Node) (type : DataType) :
    t.nodes.place kind n type =
        ((t.place hash kind n type).1, (t.place hash kind n type).2.nodes) ∧
      (t.place hash kind n type).2.Bucketed hash := by
  unfold HashedTable.place NodeTable.place
  simp only [h.find?_eq]
  cases t.nodes.find? (·.node = n) with
  | some found => exact ⟨rfl, h⟩
  | none => exact ⟨rfl, h.push ⟨kind.indexAt t.nodes.length, n, type⟩⟩

/-- The same of nodes that are placed one after another. -/
theorem Bucketed.foldl_place (h : t.Bucketed hash) (kind : TableKind) (nodes : NodeTable) :
    (nodes.foldl (fun t n => (t.place hash kind n.node n.type).2) t).nodes =
        nodes.foldl (fun t n => (t.place kind n.node n.type).2) t.nodes ∧
      (nodes.foldl (fun t n => (t.place hash kind n.node n.type).2) t).Bucketed hash := by
  induction nodes generalizing t with
  | nil => exact ⟨rfl, h⟩
  | cons n rest ih =>
    obtain ⟨hplace, hbuckets⟩ := h.place kind n.node n.type
    rw [List.foldl_cons, List.foldl_cons, hplace]
    exact ih hbuckets

end HashedTable

end AccessPolicy
