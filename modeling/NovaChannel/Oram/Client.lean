import NovaChannel.Lib.HeapTree
import NovaChannel.Wire

/-!
# Path ORAM

Blocks live in the buckets of a binary tree that an untrusted server keeps, or in the client's
stash.  Every access reads one path into the stash, gives its block a fresh random leaf and
evicts the stash onto the same path, deepest bucket first.

The server is a `ServerStorage` with a state of its own, so the client code is the same for the
in-memory server, the encrypting one and an adversary.  Leaves the random generator returns are a
list, the tape of a run.

* `access` : one read or write; `none` is a panic;
* `mem_pathNodes_iff` : the nodes of a path are the ancestors of its leaf;
* `choose_eq_some` : what an eviction puts into one bucket.
-/

namespace NovaChannel

namespace Oram

open Wire (FixedBytes)

/-- `BlockId`. -/
abbrev BlockId := UInt64

/-- A SHA-256 digest. -/
abbrev Digest := FixedBytes 32

/-- A block. -/
structure Block (V : Type) where
  id : BlockId
  value : V
  deriving DecidableEq

/-- `ServerStorage`: bucket storage by node index, over server states `σ`. -/
structure ServerStorage (σ V : Type) where
  /-- Every block in a bucket, which is left empty. -/
  readAndClear : σ → ℕ → List (Block V) × σ
  /-- Replaces a bucket's contents; `none` is a failed assertion. -/
  write : σ → ℕ → List (Block V) → Option σ
  /-- `Z`. -/
  bucketCapacity : ℕ

/-- `InMemoryServer`: the buckets by node index. -/
def inMemoryServer (V : Type) (bucketCapacity : ℕ) : ServerStorage (ℕ → List (Block V)) V where
  readAndClear buckets node := (buckets node, Function.update buckets node [])
  write buckets node blocks := some (Function.update buckets node blocks)
  bucketCapacity := bucketCapacity

/-- The client: position map, stash and trusted root, and the state of its server. -/
structure Client (σ V : Type) where
  depth : ℕ
  server : σ
  positionMap : BlockId → Option ℕ
  stash : List (Block V)
  root : Digest

section Definitions

variable {σ V : Type}

/-- `num_leaves`. -/
def numLeaves (depth : ℕ) : ℕ := 2 ^ depth

/-- The all-zero digest. -/
def zeroDigest : Digest := ⟨List.replicate 32 0, List.length_replicate⟩

/-- `with_server`. -/
def Client.withServer (depth : ℕ) (server : σ) : Client σ V where
  depth := depth
  server := server
  positionMap := fun _ => none
  stash := []
  root := zeroDigest

/-- The loop of `path_nodes`, for at most `fuel` steps. -/
def climb : ℕ → ℕ → List ℕ
  | 0, _ => []
  | fuel + 1, node => if node > 1 then node / 2 :: climb fuel (node / 2) else []

/-- `path_nodes`: from the leaf up to the root. -/
def pathNodes (depth leaf : ℕ) : List ℕ :=
  (numLeaves depth + leaf) :: climb (numLeaves depth + leaf) (numLeaves depth + leaf)

/-- The loop of `is_ancestor_of_leaf`, for at most `fuel` steps. -/
def isAncestor (node : ℕ) : ℕ → ℕ → Bool
  | 0, _ => false
  | fuel + 1, n => if n = node then true else if n = 1 then false else isAncestor node fuel (n / 2)

/-- `is_ancestor_of_leaf`. -/
def isAncestorOfLeaf (depth node leaf : ℕ) : Bool :=
  isAncestor node (numLeaves depth + leaf) (numLeaves depth + leaf)

/-- `random_leaf`: the next leaf of the tape. -/
def randomLeaf (tape : List ℕ) : ℕ × List ℕ := (tape.headD 0, tape.tail)

/-- `read_path_into_stash`. -/
def readPathIntoStash (S : ServerStorage σ V) (c : Client σ V) (leaf : ℕ) : Client σ V :=
  (pathNodes c.depth leaf).foldl (fun c node =>
    let (blocks, server) := S.readAndClear c.server node
    { c with stash := c.stash ++ blocks, server := server }) c

/-- The loop of `evict_path` over the stash: what goes into a bucket with room for so many blocks,
and what stays.  `none` is a stashed block without a position. -/
def choose (depth : ℕ) (positionMap : BlockId → Option ℕ) (node : ℕ) :
    ℕ → List (Block V) → Option (List (Block V) × List (Block V))
  | _, [] => some ([], [])
  | 0, b :: stash => some ([], b :: stash)
  | room + 1, b :: stash => do
    let leafOf ← positionMap b.id
    if isAncestorOfLeaf depth node leafOf then
      let (chosen, rest) ← choose depth positionMap node room stash
      some (b :: chosen, rest)
    else
      let (chosen, rest) ← choose depth positionMap node (room + 1) stash
      some (chosen, b :: rest)

/-- The loop of `evict_path` over the path. -/
def evictPath (S : ServerStorage σ V) (c : Client σ V) : List ℕ → Option (Client σ V)
  | [] => some c
  | node :: path => do
    let (chosen, stash) ← choose c.depth c.positionMap node S.bucketCapacity c.stash
    let server ← S.write c.server node chosen
    evictPath S { c with stash := stash, server := server } path

/-- The value of a block in the stash. -/
def lookup (id : BlockId) (stash : List (Block V)) : Option V :=
  (stash.find? fun b => b.id == id).map Block.value

/-- The stash after the accessed block was read or written. -/
def update (id : BlockId) (newValue : Option V) (stash : List (Block V)) : List (Block V) :=
  match stash.findIdx? (fun b => b.id == id), newValue with
  | some i, some v => stash.modify i fun b => { b with value := v }
  | some _, none => stash
  | none, some v => stash ++ [⟨id, v⟩]
  | none, none => stash

/-- `access` once its leaves are drawn. -/
def accessAt (S : ServerStorage σ V) (c : Client σ V) (id : BlockId) (newValue : Option V)
    (oldLeaf newLeaf : ℕ) : Option (Client σ V × Option V) := do
  let c := { c with positionMap := Function.update c.positionMap id (some newLeaf) }
  let c := readPathIntoStash S c oldLeaf
  let oldValue := lookup id c.stash
  let c := { c with stash := update id newValue c.stash }
  let c ← evictPath S c (pathNodes c.depth oldLeaf)
  some (c, oldValue)

/-- The leaves an access draws: the old one only for an id never seen before. -/
def drawLeaves (c : Client σ V) (id : BlockId) (tape : List ℕ) : ℕ × ℕ × List ℕ :=
  match c.positionMap id with
  | some leaf =>
    let (newLeaf, tape) := randomLeaf tape
    (leaf, newLeaf, tape)
  | none =>
    let (oldLeaf, tape) := randomLeaf tape
    let (newLeaf, tape) := randomLeaf tape
    (oldLeaf, newLeaf, tape)

/-- `access`: a read, or a write of a new value. -/
def access (S : ServerStorage σ V) (c : Client σ V) (id : BlockId) (newValue : Option V)
    (tape : List ℕ) : Option (Client σ V × Option V × List ℕ) := do
  let (oldLeaf, newLeaf, tape) := drawLeaves c id tape
  let (c, oldValue) ← accessAt S c id newValue oldLeaf newLeaf
  some (c, oldValue, tape)

end Definitions

/-! ### Paths -/

theorem mem_climb_iff {a : ℕ} : ∀ {fuel n : ℕ}, n ≤ fuel →
    (a ∈ climb fuel n ↔ 0 < a ∧ a ≠ n ∧ HeapTree.Under a n) := by
  intro fuel
  induction fuel with
  | zero =>
    intro n hn
    obtain rfl : n = 0 := by omega
    refine ⟨fun h => (by cases h), fun ⟨ha, _, h⟩ => ?_⟩
    have := h.le
    omega
  | succ fuel ih =>
    intro n hn
    rw [climb]
    by_cases h1 : n > 1
    · rw [if_pos h1, List.mem_cons, ih (by omega)]
      constructor
      · rintro (rfl | ⟨ha, -, h⟩)
        · exact ⟨by omega, by omega, HeapTree.under_half n⟩
        · have := h.le
          exact ⟨ha, by omega, h.trans (HeapTree.under_half n)⟩
      · rintro ⟨ha, hne, h⟩
        rcases HeapTree.under_iff_half.1 h with h | h
        · exact absurd h.symm hne
        · by_cases he : a = n / 2
          · exact .inl he
          · exact .inr ⟨ha, he, h⟩
    · rw [if_neg h1]
      refine ⟨fun h => (by cases h), fun ⟨ha, hne, h⟩ => ?_⟩
      have := h.le
      omega

theorem isAncestor_iff {a : ℕ} (ha : 0 < a) : ∀ {fuel n : ℕ}, n ≤ fuel → 0 < n →
    (isAncestor a fuel n = true ↔ HeapTree.Under a n) := by
  intro fuel
  induction fuel with
  | zero => intro n hn hpos; omega
  | succ fuel ih =>
    intro n hn hpos
    rw [isAncestor]
    by_cases he : n = a
    · subst he
      simp [HeapTree.Under.refl]
    rw [if_neg he]
    by_cases h1 : n = 1
    · subst h1
      refine ⟨fun h => (by simp at h), fun h => ?_⟩
      have := h.le
      omega
    · rw [if_neg h1, ih (by omega) (by omega)]
      refine ⟨fun h => h.trans (HeapTree.under_half n), fun h => ?_⟩
      exact (HeapTree.under_iff_half.1 h).resolve_left he

theorem numLeaves_pos (depth : ℕ) : 0 < numLeaves depth := Nat.two_pow_pos depth

/-- The nodes of a path are the leaf's ancestors. -/
theorem mem_pathNodes_iff_under {depth node leaf : ℕ} :
    node ∈ pathNodes depth leaf ↔ 0 < node ∧ HeapTree.Under node (numLeaves depth + leaf) := by
  have := numLeaves_pos depth
  rw [pathNodes, List.mem_cons, mem_climb_iff (Nat.le_refl _)]
  constructor
  · rintro (rfl | ⟨ha, -, h⟩)
    · exact ⟨by omega, .refl _⟩
    · exact ⟨ha, h⟩
  · rintro ⟨ha, h⟩
    by_cases he : node = numLeaves depth + leaf
    · exact .inl he
    · exact .inr ⟨ha, he, h⟩

/-- The test an eviction makes says whether a node is on the path of a leaf. -/
theorem mem_pathNodes_iff {depth node leaf : ℕ} (hnode : 0 < node) :
    node ∈ pathNodes depth leaf ↔ isAncestorOfLeaf depth node leaf = true := by
  have := numLeaves_pos depth
  rw [mem_pathNodes_iff_under, isAncestorOfLeaf,
    isAncestor_iff hnode (Nat.le_refl _) (by omega), and_iff_right hnode]

/-- The nodes of a path are nodes of the tree. -/
theorem range_of_mem_pathNodes {depth node leaf : ℕ} (hleaf : leaf < numLeaves depth)
    (h : node ∈ pathNodes depth leaf) : 0 < node ∧ node < 2 * numLeaves depth := by
  obtain ⟨hpos, hunder⟩ := mem_pathNodes_iff_under.1 h
  have := hunder.le
  exact ⟨hpos, by omega⟩

/-- A draw is in range, and so is what is left of the tape. -/
theorem randomLeaf_lt {depth : ℕ} {tape : List ℕ} (htape : ∀ leaf ∈ tape, leaf < numLeaves depth) :
    (randomLeaf tape).1 < numLeaves depth ∧
      ∀ leaf ∈ (randomLeaf tape).2, leaf < numLeaves depth := by
  cases tape with
  | nil => exact ⟨numLeaves_pos _, fun leaf hl => (by cases hl)⟩
  | cons x tape =>
    exact ⟨htape x List.mem_cons_self, fun leaf hl => htape leaf (List.mem_cons_of_mem _ hl)⟩

/-- The leaf an access reads from is in range. -/
theorem drawLeaves_lt {σ : Type} {c : Client σ V} {id : BlockId} {tape : List ℕ}
    (hpos : ∀ leaf, c.positionMap id = some leaf → leaf < numLeaves c.depth)
    (htape : ∀ leaf ∈ tape, leaf < numLeaves c.depth) :
    (drawLeaves c id tape).1 < numLeaves c.depth ∧
      (drawLeaves c id tape).2.1 < numLeaves c.depth := by
  obtain ⟨h1, h1'⟩ := randomLeaf_lt htape
  cases h : c.positionMap id with
  | some leaf => simpa only [drawLeaves, h] using And.intro (hpos leaf h) h1
  | none => simpa only [drawLeaves, h] using And.intro h1 (randomLeaf_lt h1').1

theorem nodup_climb : ∀ fuel n : ℕ, (climb fuel n).Nodup ∧ ∀ a ∈ climb fuel n, a < n := by
  intro fuel
  induction fuel with
  | zero => exact fun n => ⟨List.nodup_nil, fun a h => (by cases h)⟩
  | succ fuel ih =>
    intro n
    rw [climb]
    by_cases h1 : n > 1
    · obtain ⟨hnd, hlt⟩ := ih (n / 2)
      rw [if_pos h1]
      refine ⟨List.nodup_cons.2 ⟨fun h => absurd (hlt _ h) (Nat.lt_irrefl _), hnd⟩, fun a h => ?_⟩
      rcases List.mem_cons.1 h with rfl | h
      · omega
      · have := hlt a h
        omega
    · rw [if_neg h1]
      exact ⟨List.nodup_nil, fun a h => (by cases h)⟩

/-- A path visits no node twice. -/
theorem nodup_pathNodes (depth leaf : ℕ) : (pathNodes depth leaf).Nodup := by
  obtain ⟨hnd, hlt⟩ := nodup_climb (numLeaves depth + leaf) (numLeaves depth + leaf)
  exact List.nodup_cons.2 ⟨fun h => absurd (hlt _ h) (Nat.lt_irrefl _), hnd⟩

/-! ### One bucket of an eviction -/

section Choose

variable {V : Type} {depth node : ℕ} {positionMap : BlockId → Option ℕ}

/-- **What an eviction puts into a bucket**: blocks of the stash whose leaf is below it, at most as
many as there is room for; the others stay. -/
theorem choose_eq_some : ∀ {room : ℕ} {stash chosen rest : List (Block V)},
    choose depth positionMap node room stash = some (chosen, rest) →
    (chosen ++ rest).Perm stash ∧ chosen.length ≤ room ∧
      ∀ b ∈ chosen, ∃ leaf, positionMap b.id = some leaf ∧
        isAncestorOfLeaf depth node leaf = true := by
  intro room stash
  induction stash generalizing room with
  | nil =>
    intro chosen rest h
    obtain ⟨rfl, rfl⟩ : chosen = [] ∧ rest = [] := by
      cases room <;> simpa [choose, eq_comm] using h
    simp
  | cons b stash ih =>
    intro chosen rest h
    cases room with
    | zero =>
      simp only [choose, Option.some.injEq, Prod.mk.injEq] at h
      obtain ⟨rfl, rfl⟩ := h
      simp
    | succ room =>
      simp only [choose, Option.bind_eq_bind, Option.bind_eq_some_iff] at h
      obtain ⟨leaf, hleaf, h⟩ := h
      split_ifs at h with hanc
      · obtain ⟨⟨chosen', rest'⟩, hrec, h⟩ := Option.bind_eq_some_iff.1 h
        simp only [Option.some.injEq, Prod.mk.injEq] at h
        obtain ⟨rfl, rfl⟩ := h
        obtain ⟨hperm, hlen, hpos⟩ := ih hrec
        refine ⟨hperm.cons b, by simpa using hlen, fun b' hb' => ?_⟩
        rcases List.mem_cons.1 hb' with rfl | hb'
        · exact ⟨leaf, hleaf, hanc⟩
        · exact hpos b' hb'
      · obtain ⟨⟨chosen', rest'⟩, hrec, h⟩ := Option.bind_eq_some_iff.1 h
        simp only [Option.some.injEq, Prod.mk.injEq] at h
        obtain ⟨rfl, rfl⟩ := h
        obtain ⟨hperm, hlen, hpos⟩ := ih hrec
        exact ⟨List.perm_middle.trans (hperm.cons b), hlen, hpos⟩

/-- The loop does not panic on blocks that have positions. -/
theorem choose_isSome (room : ℕ) {stash : List (Block V)}
    (h : ∀ b ∈ stash, (positionMap b.id).isSome = true) :
    ∃ chosen rest, choose depth positionMap node room stash = some (chosen, rest) := by
  induction stash generalizing room with
  | nil => exact ⟨[], [], by cases room <;> rfl⟩
  | cons b stash ih =>
    cases room with
    | zero => exact ⟨[], b :: stash, rfl⟩
    | succ room =>
      obtain ⟨leaf, hleaf⟩ := Option.isSome_iff_exists.1 (h b List.mem_cons_self)
      have h' : ∀ b ∈ stash, (positionMap b.id).isSome = true :=
        fun b hb => h b (List.mem_cons_of_mem _ hb)
      by_cases hanc : isAncestorOfLeaf depth node leaf = true
      · obtain ⟨chosen, rest, hrec⟩ := ih room h'
        exact ⟨b :: chosen, rest, by simp [choose, hleaf, hanc, hrec]⟩
      · obtain ⟨chosen, rest, hrec⟩ := ih (room + 1) h'
        exact ⟨chosen, b :: rest, by simp [choose, hleaf, hanc, hrec]⟩

end Choose

end Oram

end NovaChannel
