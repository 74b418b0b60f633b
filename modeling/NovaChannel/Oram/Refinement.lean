import NovaChannel.Oram.Client

/-!
# Path ORAM is a map

Over the in-memory server every read and write answers as a plain map would.

* `evictChoose` : the eviction of a whole path, before anything is written;
* `accessAt_inMemory` : what an access does to stash and buckets, in one equation;
* `Inv` : **every written block is in one place**, in the stash or in a bucket on the path to its
  leaf, and no bucket is too full (`Inv.accessAt`);
* `run_refines` : whole runs.
-/

namespace NovaChannel

namespace Oram

/-- The buckets of an in-memory server. -/
abbrev Buckets (V : Type) := ℕ → List (Block V)

/-! ### An eviction as a whole -/

section Evict

variable {V : Type}

/-- What an eviction puts into every bucket of a path, and what stays in the stash. -/
def evictChoose (depth : ℕ) (positionMap : BlockId → Option ℕ) (capacity : ℕ) :
    List ℕ → List (Block V) → Option (List (ℕ × List (Block V)) × List (Block V))
  | [], stash => some ([], stash)
  | node :: path, stash => do
    let (chosen, stash) ← choose depth positionMap node capacity stash
    let (chosenPerNode, stash) ← evictChoose depth positionMap capacity path stash
    some ((node, chosen) :: chosenPerNode, stash)

/-- The buckets with those of a path replaced. -/
def place (chosenPerNode : List (ℕ × List (Block V))) (buckets : Buckets V) : Buckets V :=
  fun node => (chosenPerNode.lookup node).getD (buckets node)

theorem place_of_notMem {chosenPerNode : List (ℕ × List (Block V))} {buckets : Buckets V}
    {node : ℕ} (h : node ∉ chosenPerNode.map Prod.fst) :
    place chosenPerNode buckets node = buckets node := by
  have hnone : chosenPerNode.lookup node = none := by
    rw [List.lookup_eq_none_iff]
    intro p hp
    simpa using fun he : node = p.1 => h (he ▸ List.mem_map_of_mem hp)
  rw [place, hnone, Option.getD_none]

theorem place_of_mem {chosenPerNode : List (ℕ × List (Block V))} (buckets : Buckets V)
    (hnd : (chosenPerNode.map Prod.fst).Nodup) {p : ℕ × List (Block V)} (hp : p ∈ chosenPerNode) :
    place chosenPerNode buckets p.1 = p.2 := by
  induction chosenPerNode with
  | nil => cases hp
  | cons q chosenPerNode ih =>
    obtain ⟨hq, hnd⟩ := List.nodup_cons.1 hnd
    rcases List.mem_cons.1 hp with rfl | hp
    · have hself : (p :: chosenPerNode).lookup p.1 = some p.2 := List.lookup_cons_self
      rw [place, hself, Option.getD_some]
    · have hne : p.1 ≠ q.1 := fun he => hq (he ▸ List.mem_map_of_mem hp)
      have := ih hnd hp
      rw [place] at this ⊢
      rwa [List.lookup_cons, beq_false_of_ne hne]

/-- The replaced buckets hold what was chosen. -/
theorem flatMap_place {chosenPerNode : List (ℕ × List (Block V))} (buckets : Buckets V)
    (hnd : (chosenPerNode.map Prod.fst).Nodup) :
    (chosenPerNode.map Prod.fst).flatMap (place chosenPerNode buckets) =
      chosenPerNode.flatMap Prod.snd := by
  rw [List.flatMap_map]
  exact List.flatMap_congr fun p hp => place_of_mem buckets hnd hp

/-- An eviction moves blocks of the stash to buckets on the path, above their leaves. -/
theorem evictChoose_eq_some {depth capacity : ℕ} {positionMap : BlockId → Option ℕ} :
    ∀ {path : List ℕ} {stash rest : List (Block V)} {chosenPerNode : List (ℕ × List (Block V))},
    evictChoose depth positionMap capacity path stash = some (chosenPerNode, rest) →
    chosenPerNode.map Prod.fst = path ∧ (chosenPerNode.flatMap Prod.snd ++ rest).Perm stash ∧
      ∀ p ∈ chosenPerNode, p.2.length ≤ capacity ∧
        ∀ b ∈ p.2, ∃ leaf, positionMap b.id = some leaf ∧
          isAncestorOfLeaf depth p.1 leaf = true := by
  intro path
  induction path with
  | nil =>
    intro stash rest chosenPerNode h
    simp only [evictChoose, Option.some.injEq, Prod.mk.injEq] at h
    obtain ⟨rfl, rfl⟩ := h
    simp
  | cons node path ih =>
    intro stash rest chosenPerNode h
    simp only [evictChoose, Option.bind_eq_bind, Option.bind_eq_some_iff] at h
    obtain ⟨⟨chosen, stash₁⟩, hchoose, ⟨chosenPerNode', rest'⟩, hrec, h⟩ := h
    simp only [Option.some.injEq, Prod.mk.injEq] at h
    obtain ⟨rfl, rfl⟩ := h
    obtain ⟨hperm, hlen, hpos⟩ := choose_eq_some hchoose
    obtain ⟨rfl, hperm', hall⟩ := ih hrec
    refine ⟨rfl, ?_, fun p hp => ?_⟩
    · rw [List.flatMap_cons, List.append_assoc]
      exact (hperm'.append_left chosen).trans hperm
    · rcases List.mem_cons.1 hp with rfl | hp
      · exact ⟨hlen, hpos⟩
      · exact hall p hp

/-- An eviction does not panic on blocks that have positions. -/
theorem evictChoose_isSome {depth capacity : ℕ} {positionMap : BlockId → Option ℕ}
    (path : List ℕ) {stash : List (Block V)}
    (h : ∀ b ∈ stash, (positionMap b.id).isSome = true) :
    ∃ chosenPerNode rest, evictChoose depth positionMap capacity path stash =
      some (chosenPerNode, rest) := by
  induction path generalizing stash with
  | nil => exact ⟨[], stash, rfl⟩
  | cons node path ih =>
    obtain ⟨chosen, rest, hchoose⟩ := @choose_isSome V depth node positionMap capacity stash h
    have hrest : ∀ b ∈ rest, (positionMap b.id).isSome = true := fun b hb =>
      h b ((choose_eq_some hchoose).1.subset (List.mem_append_right _ hb))
    obtain ⟨chosenPerNode, rest', hrec⟩ := ih hrest
    exact ⟨(node, chosen) :: chosenPerNode, rest', by simp [evictChoose, hchoose, hrec]⟩

end Evict

/-! ### An access over the in-memory server -/

section InMemory

variable {V : Type}

theorem readPath_inMemory {capacity : ℕ} (c : Client (Buckets V) V) {path : List ℕ}
    (hnd : path.Nodup) :
    path.foldl (fun c node =>
      let (blocks, server) := (inMemoryServer V capacity).readAndClear c.server node
      { c with stash := c.stash ++ blocks, server := server }) c =
      { c with
        stash := c.stash ++ path.flatMap c.server
        server := fun node => if node ∈ path then [] else c.server node } := by
  induction path generalizing c with
  | nil => simp
  | cons node path ih =>
    obtain ⟨hnode, hnd⟩ := List.nodup_cons.1 hnd
    rw [List.foldl_cons, ih _ hnd]
    have hflat : path.flatMap (Function.update c.server node []) = path.flatMap c.server :=
      List.flatMap_congr fun n hn => Function.update_of_ne (fun he : n = node => hnode (he ▸ hn)) _ _
    simp only [inMemoryServer, hflat, List.flatMap_cons, List.append_assoc]
    congr 1
    funext n
    by_cases hn : n = node
    · subst hn
      simp
    · simp [hn]

theorem evictPath_inMemory {capacity : ℕ} (c : Client (Buckets V) V) {path : List ℕ}
    (hnd : path.Nodup) :
    evictPath (inMemoryServer V capacity) c path =
      (evictChoose c.depth c.positionMap capacity path c.stash).map fun (chosenPerNode, stash) =>
        { c with stash := stash, server := place chosenPerNode c.server } := by
  induction path generalizing c with
  | nil => rfl
  | cons node path ih =>
    obtain ⟨hnode, hnd⟩ := List.nodup_cons.1 hnd
    simp only [evictPath, evictChoose, Option.bind_eq_bind, inMemoryServer]
    cases hchoose : choose c.depth c.positionMap node capacity c.stash with
    | none => rfl
    | some p =>
      simp only [Option.bind_some]
      have := ih { c with stash := p.2, server := Function.update c.server node p.1 } hnd
      simp only [inMemoryServer] at this
      rw [this]
      cases hrec : evictChoose c.depth c.positionMap capacity path p.2 with
      | none => rfl
      | some q =>
        simp only [Option.map_some, Option.bind_some, Option.some.injEq]
        congr 1
        funext n
        by_cases hn : n = node
        · subst hn
          rw [place_of_notMem (by rw [(evictChoose_eq_some hrec).1]; exact hnode)]
          simp [place]
        · simp only [place, List.lookup_cons, beq_false_of_ne hn]
          rw [Function.update_of_ne hn]

/-- The stash once a path was read into it. -/
def collected (c : Client (Buckets V) V) (leaf : ℕ) : List (Block V) :=
  c.stash ++ (pathNodes c.depth leaf).flatMap c.server

/-- **An access in one equation.** -/
theorem accessAt_inMemory {capacity : ℕ} (c : Client (Buckets V) V) (id : BlockId)
    (newValue : Option V) (oldLeaf newLeaf : ℕ) :
    accessAt (inMemoryServer V capacity) c id newValue oldLeaf newLeaf =
      (evictChoose c.depth (Function.update c.positionMap id (some newLeaf)) capacity
        (pathNodes c.depth oldLeaf) (update id newValue (collected c oldLeaf))).map
        fun (chosenPerNode, stash) =>
          ({ c with
              positionMap := Function.update c.positionMap id (some newLeaf)
              stash := stash
              server := place chosenPerNode c.server },
            lookup id (collected c oldLeaf)) := by
  have hnd := nodup_pathNodes c.depth oldLeaf
  simp only [accessAt, readPathIntoStash, readPath_inMemory _ hnd, evictPath_inMemory _ hnd,
    Option.bind_eq_bind, collected]
  cases hev : evictChoose c.depth (Function.update c.positionMap id (some newLeaf)) capacity
      (pathNodes c.depth oldLeaf)
      (update id newValue (c.stash ++ (pathNodes c.depth oldLeaf).flatMap c.server)) with
  | none => rfl
  | some p =>
    simp only [Option.map_some, Option.bind_some, Option.some.injEq, Prod.mk.injEq, and_true]
    congr 1
    funext n
    by_cases hn : n ∈ pathNodes c.depth oldLeaf
    · -- a bucket of the path is replaced, whatever was in it
      rw [← (evictChoose_eq_some hev).1] at hn hnd
      obtain ⟨q, hq, rfl⟩ := List.mem_map.1 hn
      rw [place_of_mem _ hnd hq, place_of_mem _ hnd hq]
    · rw [← (evictChoose_eq_some hev).1] at hn
      rw [place_of_notMem hn, place_of_notMem hn, if_neg]
      rwa [← (evictChoose_eq_some hev).1]

end InMemory

/-! ### The accessed block -/

section Update

variable {V : Type} {id : BlockId} {v : V}

theorem update_none (id : BlockId) (stash : List (Block V)) : update id none stash = stash := by
  cases h : stash.findIdx? fun b => b.id == id <;> simp only [update, h]

theorem update_some_cons (b : Block V) (stash : List (Block V)) :
    update id (some v) (b :: stash) =
      if b.id = id then ⟨id, v⟩ :: stash else b :: update id (some v) stash := by
  by_cases hb : b.id = id
  · rw [if_pos hb]
    subst hb
    simp [update, List.findIdx?_cons]
  · rw [if_neg hb]
    simp only [update, List.findIdx?_cons, beq_false_of_ne hb, Bool.false_eq_true, ↓reduceIte]
    cases stash.findIdx? (fun b => b.id == id) <;> simp

/-- The block is in the stash with its new value, and nothing else changed. -/
theorem mem_update_some {stash : List (Block V)} (hnd : (stash.map Block.id).Nodup) {b : Block V} :
    b ∈ update id (some v) stash ↔ b = ⟨id, v⟩ ∨ b.id ≠ id ∧ b ∈ stash := by
  induction stash with
  | nil => simp [update]
  | cons x stash ih =>
    obtain ⟨hx, hnd⟩ := List.nodup_cons.1 hnd
    rw [update_some_cons]
    by_cases he : x.id = id
    · subst he
      have hne : ∀ y ∈ stash, y.id ≠ x.id := fun y hy he => hx (he ▸ List.mem_map_of_mem hy)
      rw [if_pos rfl, List.mem_cons, List.mem_cons]
      constructor
      · rintro (h | h)
        · exact .inl h
        · exact .inr ⟨hne b h, .inr h⟩
      · rintro (h | ⟨hb, rfl | h⟩)
        · exact .inl h
        · exact absurd rfl hb
        · exact .inr h
    · rw [if_neg he, List.mem_cons, List.mem_cons, ih hnd]
      constructor
      · rintro (rfl | h | ⟨hb, h⟩)
        · exact .inr ⟨he, .inl rfl⟩
        · exact .inl h
        · exact .inr ⟨hb, .inr h⟩
      · rintro (h | ⟨hb, h | h⟩)
        · exact .inr (.inl h)
        · exact .inl h
        · exact .inr (.inr ⟨hb, h⟩)

theorem nodup_update {stash : List (Block V)} (newValue : Option V)
    (hnd : (stash.map Block.id).Nodup) : ((update id newValue stash).map Block.id).Nodup := by
  cases newValue with
  | none => rwa [update_none]
  | some v =>
    induction stash with
    | nil => simp [update]
    | cons x stash ih =>
      obtain ⟨hx, hnd'⟩ := List.nodup_cons.1 hnd
      rw [update_some_cons]
      split_ifs with he
      · subst he
        exact hnd
      · rw [List.map_cons]
        refine List.nodup_cons.2 ⟨fun h => ?_, ih hnd'⟩
        obtain ⟨y, hy, hid⟩ := List.mem_map.1 h
        rcases (mem_update_some hnd').1 hy with rfl | ⟨-, hy⟩
        · exact he hid.symm
        · exact hx (hid ▸ List.mem_map_of_mem hy)

theorem lookup_eq_some {stash : List (Block V)} (hnd : (stash.map Block.id).Nodup) :
    lookup id stash = some v ↔ ⟨id, v⟩ ∈ stash := by
  induction stash with
  | nil => simp [lookup]
  | cons x stash ih =>
    obtain ⟨hx, hnd⟩ := List.nodup_cons.1 hnd
    by_cases he : x.id = id
    · subst he
      have hfind : lookup x.id (x :: stash) = some x.value := by simp [lookup]
      have hne : (⟨x.id, v⟩ : Block V) ∉ stash :=
        fun h => hx (List.mem_map.2 ⟨_, h, rfl⟩)
      rw [hfind, List.mem_cons, or_iff_left hne, Option.some.injEq]
      exact ⟨fun h => h ▸ rfl, fun h => (congrArg Block.value h).symm⟩
    · have hfind : lookup id (x :: stash) = lookup id stash := by
        simp [lookup, beq_false_of_ne he]
      have hne : (⟨id, v⟩ : Block V) ≠ x := fun h => he (congrArg Block.id h).symm
      rw [hfind, ih hnd, List.mem_cons, or_iff_right hne]

end Update

/-! ### The invariant -/

section Invariant

variable {V : Type}

/-- The nodes of the tree. -/
def nodes (depth : ℕ) : List ℕ := List.range' 1 (2 * numLeaves depth - 1)

theorem mem_nodes {depth node : ℕ} : node ∈ nodes depth ↔ 0 < node ∧ node < 2 * numLeaves depth := by
  have := numLeaves_pos depth
  rw [nodes, List.mem_range'_1]
  omega

/-- The nodes off the path of a leaf. -/
def offPath (depth leaf : ℕ) : List ℕ :=
  (nodes depth).filter fun node => node ∉ pathNodes depth leaf

theorem perm_nodes {depth leaf : ℕ} (hleaf : leaf < numLeaves depth) :
    (pathNodes depth leaf ++ offPath depth leaf).Perm (nodes depth) := by
  have hoff : ∀ node, node ∈ offPath depth leaf ↔
      node ∈ nodes depth ∧ node ∉ pathNodes depth leaf := fun node => by
    simp [offPath]
  have hnodes : (nodes depth).Nodup := List.nodup_range'
  refine (List.perm_ext_iff_of_nodup ?_ hnodes).2 fun node => ?_
  · refine List.nodup_append.2 ⟨nodup_pathNodes _ _, hnodes.filter _, ?_⟩
    rintro a ha b hb rfl
    exact ((hoff a).1 hb).2 ha
  · rw [List.mem_append, hoff]
    constructor
    · rintro (h | h)
      · exact mem_nodes.2 (range_of_mem_pathNodes hleaf h)
      · exact h.1
    · intro h
      by_cases hp : node ∈ pathNodes depth leaf
      · exact .inl hp
      · exact .inr ⟨h, hp⟩

/-- Every block there is, in the stash or on the server. -/
def contents (c : Client (Buckets V) V) : List (Block V) :=
  c.stash ++ (nodes c.depth).flatMap c.server

/-- The blocks on a path and the stash, and the rest. -/
theorem contents_perm (c : Client (Buckets V) V) {leaf : ℕ} (hleaf : leaf < numLeaves c.depth) :
    (contents c).Perm (collected c leaf ++ (offPath c.depth leaf).flatMap c.server) := by
  rw [contents, collected, List.append_assoc, ← List.flatMap_append]
  exact ((perm_nodes hleaf).symm.flatMap_right c.server).append_left c.stash

/-- The client and its server hold the map `m`: every written block is in one place, where its
position says. -/
structure Inv (capacity : ℕ) (m : BlockId → Option V) (c : Client (Buckets V) V) : Prop where
  nodup : ((contents c).map Block.id).Nodup
  mem_iff : ∀ b, b ∈ contents c ↔ m b.id = some b.value
  placed : ∀ node ∈ nodes c.depth, ∀ b ∈ c.server node, ∃ leaf,
    c.positionMap b.id = some leaf ∧ isAncestorOfLeaf c.depth node leaf = true
  stashed : ∀ b ∈ c.stash, (c.positionMap b.id).isSome = true
  leaf_lt : ∀ id leaf, c.positionMap id = some leaf → leaf < numLeaves c.depth
  room : ∀ node, (c.server node).length ≤ capacity

/-- The reference: what an access does to a map. -/
def writeMap (m : BlockId → Option V) (id : BlockId) : Option V → BlockId → Option V
  | none => m
  | some v => Function.update m id (some v)

namespace Inv

variable {capacity : ℕ} {m : BlockId → Option V} {c : Client (Buckets V) V}

theorem withServer (depth capacity : ℕ) :
    Inv capacity (fun _ => none) (Client.withServer depth fun _ => ([] : List (Block V))) where
  nodup := by
    have hnil : (nodes depth).flatMap (fun _ => ([] : List (Block V))) = [] :=
      List.flatMap_eq_nil_iff.2 fun _ _ => rfl
    simp [contents, Client.withServer, hnil]
  mem_iff b := by simp [contents, Client.withServer]
  placed node _ b hb := by cases hb
  stashed b hb := by cases hb
  leaf_lt id leaf h := by cases h
  room node := Nat.zero_le _

/-- A block is found where its position points: in the stash or on the path. -/
theorem mem_collected (h : Inv capacity m c) {id : BlockId} {leaf : ℕ}
    (hleaf : leaf < numLeaves c.depth) (hold : ∀ l, c.positionMap id = some l → l = leaf)
    {b : Block V} (hb : b ∈ contents c) (hid : b.id = id) : b ∈ collected c leaf := by
  rcases List.mem_append.1 hb with hb | hb
  · exact List.mem_append_left _ hb
  · obtain ⟨node, hnode, hb⟩ := List.mem_flatMap.1 hb
    obtain ⟨l, hl, hanc⟩ := h.placed node hnode b hb
    obtain rfl := hold l (hid ▸ hl)
    have hmem := (mem_pathNodes_iff (mem_nodes.1 hnode).1).2 hanc
    exact List.mem_append_right _ (List.mem_flatMap.2 ⟨node, hmem, hb⟩)

/-- Off the path there is no block of the accessed id. -/
theorem id_ne_of_offPath (h : Inv capacity m c) {id : BlockId} {leaf : ℕ}
    (hleaf : leaf < numLeaves c.depth) (hold : ∀ l, c.positionMap id = some l → l = leaf)
    {b : Block V} (hb : b ∈ (offPath c.depth leaf).flatMap c.server) : b.id ≠ id := by
  intro hid
  have hperm := contents_perm c hleaf
  have hnd := (hperm.map Block.id).nodup_iff.1 h.nodup
  rw [List.map_append, List.nodup_append] at hnd
  have hX := h.mem_collected hleaf hold (hperm.mem_iff.2 (List.mem_append_right _ hb)) hid
  exact hnd.2.2 _ (List.mem_map_of_mem hX) _ (List.mem_map_of_mem hb) rfl

theorem isSome_of_mem (h : Inv capacity m c) {b : Block V} (hb : b ∈ contents c) :
    (c.positionMap b.id).isSome = true := by
  rcases List.mem_append.1 hb with hb | hb
  · exact h.stashed b hb
  · obtain ⟨node, hnode, hb⟩ := List.mem_flatMap.1 hb
    obtain ⟨l, hl, -⟩ := h.placed node hnode b hb
    exact Option.isSome_iff_exists.2 ⟨l, hl⟩

/-- The blocks on the path of an access, after the accessed one was written. -/
theorem nodup_collected (h : Inv capacity m c) {leaf : ℕ} (hleaf : leaf < numLeaves c.depth) :
    ((collected c leaf).map Block.id).Nodup := by
  have hnd := ((contents_perm c hleaf).map Block.id).nodup_iff.1 h.nodup
  rw [List.map_append, List.nodup_append] at hnd
  exact hnd.1

/-- What the accessed path holds answers for the map. -/
theorem lookup_collected (h : Inv capacity m c) {id : BlockId} {leaf : ℕ}
    (hleaf : leaf < numLeaves c.depth) (hold : ∀ l, c.positionMap id = some l → l = leaf) :
    lookup id (collected c leaf) = m id := by
  refine Option.ext fun v => ?_
  rw [lookup_eq_some (h.nodup_collected hleaf)]
  constructor
  · intro hv
    exact (h.mem_iff ⟨id, v⟩).1 ((contents_perm c hleaf).mem_iff.2 (List.mem_append_left _ hv))
  · intro hv
    exact h.mem_collected hleaf hold ((h.mem_iff ⟨id, v⟩).2 hv) rfl

/-- Writing the accessed block writes the map. -/
theorem mem_update_iff (h : Inv capacity m c) {id : BlockId} (newValue : Option V) {leaf : ℕ}
    (hleaf : leaf < numLeaves c.depth) (hold : ∀ l, c.positionMap id = some l → l = leaf)
    (b : Block V) :
    b ∈ update id newValue (collected c leaf) ++ (offPath c.depth leaf).flatMap c.server ↔
      writeMap m id newValue b.id = some b.value := by
  have hperm := contents_perm c hleaf
  cases newValue with
  | none => rw [update_none, ← hperm.mem_iff, h.mem_iff, writeMap]
  | some v =>
    rw [List.mem_append, mem_update_some (h.nodup_collected hleaf), writeMap]
    by_cases hid : b.id = id
    · subst hid
      rw [Function.update_self, Option.some.injEq]
      constructor
      · rintro ((hb | ⟨hne, -⟩) | hb)
        · exact (congrArg Block.value hb).symm
        · exact absurd rfl hne
        · exact absurd rfl (h.id_ne_of_offPath hleaf hold hb)
      · rintro rfl
        exact .inl (.inl rfl)
    · rw [Function.update_of_ne hid, ← h.mem_iff, hperm.mem_iff, List.mem_append]
      constructor
      · rintro ((hb | ⟨-, hb⟩) | hb)
        · exact absurd (congrArg Block.id hb) hid
        · exact .inl hb
        · exact .inr hb
      · rintro (hb | hb)
        · exact .inl (.inr ⟨hid, hb⟩)
        · exact .inr hb

theorem nodup_update (h : Inv capacity m c) {id : BlockId} (newValue : Option V) {leaf : ℕ}
    (hleaf : leaf < numLeaves c.depth) (hold : ∀ l, c.positionMap id = some l → l = leaf) :
    ((update id newValue (collected c leaf) ++
      (offPath c.depth leaf).flatMap c.server).map Block.id).Nodup := by
  have hnd := ((contents_perm c hleaf).map Block.id).nodup_iff.1 h.nodup
  rw [List.map_append, List.nodup_append] at hnd ⊢
  obtain ⟨hX, hO, hdisj⟩ := hnd
  refine ⟨Oram.nodup_update newValue hX, hO, ?_⟩
  rintro a ha b hb rfl
  obtain ⟨x, hx, hxa⟩ := List.mem_map.1 ha
  obtain ⟨y, hy, hya⟩ := List.mem_map.1 hb
  have hne := h.id_ne_of_offPath hleaf hold hy
  cases newValue with
  | none =>
    rw [update_none] at hx
    exact hdisj _ (List.mem_map_of_mem hx) _ (List.mem_map_of_mem hy) (hxa.trans hya.symm)
  | some v =>
    rcases (mem_update_some hX).1 hx with rfl | ⟨-, hx⟩
    · exact hne (hya.trans hxa.symm)
    · exact hdisj _ (List.mem_map_of_mem hx) _ (List.mem_map_of_mem hy) (hxa.trans hya.symm)

/-- Every block the eviction sees has a position. -/
theorem isSome_update (h : Inv capacity m c) {id : BlockId} (newValue : Option V) {leaf : ℕ}
    (newLeaf : ℕ) (hleaf : leaf < numLeaves c.depth) :
    ∀ b ∈ update id newValue (collected c leaf),
      (Function.update c.positionMap id (some newLeaf) b.id).isSome = true := by
  intro b hb
  by_cases hid : b.id = id
  · rw [hid, Function.update_self]
    rfl
  · rw [Function.update_of_ne hid]
    have hX : b ∈ collected c leaf := by
      cases newValue with
      | none => rwa [update_none] at hb
      | some v =>
        rcases (mem_update_some (h.nodup_collected hleaf)).1 hb with rfl | ⟨-, hb⟩
        · exact absurd rfl hid
        · exact hb
    exact h.isSome_of_mem ((contents_perm c hleaf).mem_iff.2 (List.mem_append_left _ hX))

/-- **One access**: it answers as the map does and keeps the invariant. -/
theorem accessAt (h : Inv capacity m c) (id : BlockId) (newValue : Option V) {oldLeaf newLeaf : ℕ}
    (hold : ∀ l, c.positionMap id = some l → l = oldLeaf) (hlt : oldLeaf < numLeaves c.depth)
    (hnew : newLeaf < numLeaves c.depth) :
    ∃ c', Oram.accessAt (inMemoryServer V capacity) c id newValue oldLeaf newLeaf =
        some (c', m id) ∧ Inv capacity (writeMap m id newValue) c' ∧ c'.depth = c.depth ∧
      c'.positionMap = Function.update c.positionMap id (some newLeaf) := by
  have hpos := @isSome_update V capacity m c h id newValue oldLeaf newLeaf hlt
  obtain ⟨chosenPerNode, rest, hev⟩ := @evictChoose_isSome V c.depth capacity _
    (pathNodes c.depth oldLeaf) _ hpos
  obtain ⟨hkeys, hperm, hall⟩ := evictChoose_eq_some hev
  have hkeysnd : (chosenPerNode.map Prod.fst).Nodup := hkeys ▸ nodup_pathNodes _ _
  refine ⟨{ c with
      positionMap := Function.update c.positionMap id (some newLeaf)
      stash := rest
      server := place chosenPerNode c.server }, ?_, ?_, rfl, rfl⟩
  · rw [accessAt_inMemory, hev, Option.map_some, h.lookup_collected hlt hold]
  have hoff : (offPath c.depth oldLeaf).flatMap (place chosenPerNode c.server) =
      (offPath c.depth oldLeaf).flatMap c.server := by
    refine List.flatMap_congr fun node hnode => place_of_notMem ?_
    rw [hkeys]
    simpa [offPath] using (List.mem_filter.1 hnode).2
  -- what there is afterwards is what there was, with the block written
  have hafter : (rest ++ (nodes c.depth).flatMap (place chosenPerNode c.server)).Perm
      (update id newValue (collected c oldLeaf) ++
        (offPath c.depth oldLeaf).flatMap c.server) := by
    have hsplit := ((perm_nodes hlt).symm.flatMap_right (place chosenPerNode c.server)).append_left
      rest
    rw [List.flatMap_append, hoff, ← hkeys, flatMap_place c.server hkeysnd, ← List.append_assoc]
      at hsplit
    exact hsplit.trans ((List.perm_append_comm.trans hperm).append_right _)
  refine ⟨?_, fun b => ?_, fun node hnode b hb => ?_, fun b hb => ?_, fun i l hl => ?_,
    fun node => ?_⟩
  · exact (hafter.map Block.id).nodup_iff.2 (h.nodup_update newValue hlt hold)
  · exact hafter.mem_iff.trans (h.mem_update_iff newValue hlt hold b)
  · simp only at hb ⊢
    by_cases hp : node ∈ pathNodes c.depth oldLeaf
    · rw [← hkeys] at hp
      obtain ⟨p, hmem, rfl⟩ := List.mem_map.1 hp
      rw [place_of_mem _ hkeysnd hmem] at hb
      exact (hall p hmem).2 b hb
    · rw [place_of_notMem (by rwa [hkeys])] at hb
      have hid := h.id_ne_of_offPath hlt hold (List.mem_flatMap.2
        ⟨node, List.mem_filter.2 ⟨hnode, by simpa using hp⟩, hb⟩)
      rw [Function.update_of_ne hid]
      exact h.placed node hnode b hb
  · exact hpos b (hperm.subset (List.mem_append_right _ hb))
  · simp only at hl ⊢
    by_cases hi : i = id
    · subst hi
      rw [Function.update_self, Option.some.injEq] at hl
      exact hl ▸ hnew
    · rw [Function.update_of_ne hi] at hl
      exact h.leaf_lt i l hl
  · simp only
    by_cases hp : node ∈ chosenPerNode.map Prod.fst
    · obtain ⟨p, hmem, rfl⟩ := List.mem_map.1 hp
      rw [place_of_mem _ hkeysnd hmem]
      exact (hall p hmem).1
    · rw [place_of_notMem hp]
      exact h.room node

/-- One access with the leaves the tape gives. -/
theorem access (h : Inv capacity m c) (id : BlockId) (newValue : Option V) {tape : List ℕ}
    (htape : ∀ leaf ∈ tape, leaf < numLeaves c.depth) :
    ∃ c' tape', Oram.access (inMemoryServer V capacity) c id newValue tape =
        some (c', m id, tape') ∧ Inv capacity (writeMap m id newValue) c' ∧ c'.depth = c.depth ∧
      ∀ leaf ∈ tape', leaf < numLeaves c'.depth := by
  obtain ⟨oldLeaf, newLeaf, tape', hdrawn, hold, hlt, hnew, htape'⟩ :
      ∃ oldLeaf newLeaf tape', drawLeaves c id tape = (oldLeaf, newLeaf, tape') ∧
        (∀ l, c.positionMap id = some l → l = oldLeaf) ∧ oldLeaf < numLeaves c.depth ∧
        newLeaf < numLeaves c.depth ∧ ∀ leaf ∈ tape', leaf < numLeaves c.depth := by
    obtain ⟨h1, h1'⟩ := randomLeaf_lt htape
    obtain ⟨h2, h2'⟩ := randomLeaf_lt h1'
    cases hpos : c.positionMap id with
    | some leaf =>
      exact ⟨_, _, _, by rw [drawLeaves, hpos], fun l hl => (Option.some.inj hl).symm,
        h.leaf_lt id leaf hpos, h1, h1'⟩
    | none =>
      exact ⟨_, _, _, by rw [drawLeaves, hpos], fun l hl => (by cases hl), h1, h2, h2'⟩
  obtain ⟨c', hok, hinv, hdepth, -⟩ := h.accessAt id newValue hold hlt hnew
  refine ⟨c', tape', ?_, hinv, hdepth, by rwa [hdepth]⟩
  simp only [Oram.access, hdrawn, hok, Option.bind_eq_bind, Option.bind_some]

end Inv

end Invariant

/-! ### Runs -/

section Runs

variable {σ V : Type}

/-- An operation: the id, and the value of a write. -/
abbrev Operation (V : Type) := BlockId × Option V

/-- A run of reads and writes: the client and the answers. -/
def run (S : ServerStorage σ V) :
    Client σ V → List (Operation V) → List ℕ → Option (Client σ V × List (Option V))
  | c, [], _ => some (c, [])
  | c, (id, newValue) :: ops, tape => do
    let (c, answer, tape) ← access S c id newValue tape
    let (c, answers) ← run S c ops tape
    some (c, answer :: answers)

/-- The map after a list of operations. -/
def finalMap : (BlockId → Option V) → List (Operation V) → BlockId → Option V
  | m, [] => m
  | m, (id, newValue) :: ops => finalMap (writeMap m id newValue) ops

/-- The answers of a map. -/
def mapAnswers : (BlockId → Option V) → List (Operation V) → List (Option V)
  | _, [] => []
  | m, (id, newValue) :: ops => m id :: mapAnswers (writeMap m id newValue) ops

theorem run_of_inv {capacity : ℕ} {m : BlockId → Option V} {c : Client (Buckets V) V}
    (h : Inv capacity m c) (ops : List (Operation V)) {tape : List ℕ}
    (htape : ∀ leaf ∈ tape, leaf < numLeaves c.depth) :
    ∃ c', run (inMemoryServer V capacity) c ops tape = some (c', mapAnswers m ops) ∧
      Inv capacity (finalMap m ops) c' ∧ c'.depth = c.depth := by
  induction ops generalizing m c tape with
  | nil => exact ⟨c, rfl, h, rfl⟩
  | cons op ops ih =>
    obtain ⟨id, newValue⟩ := op
    obtain ⟨c₁, tape₁, hok, hinv, hdepth, htape₁⟩ := h.access id newValue htape
    obtain ⟨c', hrun, hinv', hdepth'⟩ := ih hinv htape₁
    exact ⟨c', by simp [run, hok, hrun, mapAnswers], hinv', hdepth'.trans hdepth⟩

/-- **Path ORAM refines a map**: for every tree and bucket size, every list of operations and
every tape of leaves the answers are those of a map; afterwards every block of the map is in one
place, in the stash or in a bucket on the path to its leaf, nothing else is stored, and no bucket
holds more than it may. -/
theorem run_refines (depth capacity : ℕ) (ops : List (Operation V)) {tape : List ℕ}
    (htape : ∀ leaf ∈ tape, leaf < numLeaves depth) :
    ∃ c, run (inMemoryServer V capacity) (Client.withServer depth fun _ => []) ops tape =
        some (c, mapAnswers (fun _ => none) ops) ∧
      (∀ b, b ∈ contents c ↔ finalMap (fun _ => none) ops b.id = some b.value) ∧
      ((contents c).map Block.id).Nodup ∧
      (∀ node ∈ nodes depth, ∀ b ∈ c.server node, ∃ leaf,
        c.positionMap b.id = some leaf ∧ node ∈ pathNodes depth leaf) ∧
      ∀ node, (c.server node).length ≤ capacity := by
  obtain ⟨c, hrun, hinv, hdepth⟩ := run_of_inv (Inv.withServer (V := V) depth capacity) ops htape
  refine ⟨c, hrun, hinv.mem_iff, hinv.nodup, fun node hnode b hb => ?_, hinv.room⟩
  have hdepth : c.depth = depth := hdepth
  rw [← hdepth] at hnode ⊢
  obtain ⟨leaf, hpos, hanc⟩ := hinv.placed node hnode b hb
  exact ⟨leaf, hpos, (mem_pathNodes_iff (mem_nodes.1 hnode).1).2 hanc⟩

/-- Two writes and two reads of one block in a tree of two leaves. -/
theorem run_refines_two : ∃ c, run (inMemoryServer ℕ 1) (Client.withServer 1 fun _ => [])
    [(7, some 10), (7, none), (7, some 11), (7, none)] [1, 0, 1, 1, 0] =
      some (c, [none, some 10, some 10, some 11]) := by
  obtain ⟨c, hrun, -⟩ := run_refines 1 1 [(7, some 10), (7, none), (7, some 11), (7, none)]
    (show ∀ leaf ∈ [1, 0, 1, 1, 0], leaf < numLeaves 1 by decide)
  exact ⟨c, hrun⟩

end Runs

end Oram

end NovaChannel
