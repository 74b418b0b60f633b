import NovaChannel.Oram.Verified

/-!
# After an integrity failure

A verified access that fails leaves the position map as the access had set it: the block of its id
is looked for on a path it was not moved to.

* `Fails` : an access during which a server answered as it liked, and what is left of the client
  when the genuine server is back;
* `Reached` : the clients of all runs with accesses and such failures;
* `unharmed_iff` : **a failure is harmless exactly if the new path holds the block**.
-/

namespace NovaChannel

namespace Oram

section Retry

variable {V : Type} (H : Hashing V)

/-- The client with another server. -/
def Client.on {σ τ : Type} (c : Client σ V) (server : τ) : Client τ V where
  depth := c.depth
  server := server
  positionMap := c.positionMap
  stash := c.stash
  root := c.root

/-- A verified access fails while some server answers; afterwards the client has its own server,
as it was, again. -/
def Fails (c : Client (Buckets V × (ℕ → Digest)) V) (id : BlockId) (newValue : Option V)
    (tape : List ℕ) (restored : Client (Buckets V × (ℕ → Digest)) V) : Prop :=
  ∃ (τ : Type) (S : VerifiableServerStorage τ V) (server : τ) (failed : Client τ V)
    (rest : List ℕ),
    verifiedAccess S H (c.on server) id newValue tape =
      some (failed, .error .integrityError, rest) ∧ restored = failed.on c.server

/-- The block of an id, if a bucket holds it, is on the path to the leaf drawn for it. -/
def OnNewPath (c : Client (Buckets V × (ℕ → Digest)) V) (id : BlockId) (tape : List ℕ) : Prop :=
  ∀ node ∈ nodes c.depth, ∀ b ∈ c.server.1 node, b.id = id →
    node ∈ pathNodes c.depth (drawLeaves c id tape).2.1

/-- Later operations answer as if there had been no failure, and every written block is there
once. -/
def Unharmed (capacity : ℕ) (m : BlockId → Option V)
    (c restored : Client (Buckets V × (ℕ → Digest)) V) : Prop :=
  ∀ (ops : List (Operation V)) (tape tape' : List ℕ),
    (∀ leaf ∈ tape, leaf < numLeaves c.depth) → (∀ leaf ∈ tape', leaf < numLeaves c.depth) →
    ∃ c₁ c₂ answers,
      verifiedRun H (integrityCheckedServer V capacity) restored ops tape = some (c₁, answers) ∧
      verifiedRun H (integrityCheckedServer V capacity) c ops tape' = some (c₂, answers) ∧
      ((contents c₁.forget).map Block.id).Nodup ∧
      ∀ b, b ∈ contents c₁.forget ↔ finalMap m ops b.id = some b.value

/-- The clients of all runs, with the map of what was written: accesses over the genuine server,
and failures that leave the block on its new path. -/
inductive Reached (depth capacity : ℕ) :
    (BlockId → Option V) → Client (Buckets V × (ℕ → Digest)) V → Prop
  | fresh : Reached depth capacity (fun _ => none) (freshVerified H depth capacity)
  | access {m : BlockId → Option V} {c c' : Client (Buckets V × (ℕ → Digest)) V} {id : BlockId}
      {newValue : Option V} {tape rest : List ℕ} {answer : Except IntegrityError (Option V)}
      (h : Reached depth capacity m c) (htape : ∀ leaf ∈ tape, leaf < numLeaves depth)
      (hok : verifiedAccess (integrityCheckedServer V capacity) H c id newValue tape =
        some (c', answer, rest)) :
      Reached depth capacity (writeMap m id newValue) c'
  | failed {m : BlockId → Option V} {c restored : Client (Buckets V × (ℕ → Digest)) V}
      {id : BlockId} {newValue : Option V} {tape : List ℕ} (h : Reached depth capacity m c)
      (htape : ∀ leaf ∈ tape, leaf < numLeaves depth)
      (hfails : Fails H c id newValue tape restored) (hon : OnNewPath c id tape) :
      Reached depth capacity m restored

/-! ### What a failure leaves -/

section Failed

variable {σ : Type} {S : VerifiableServerStorage σ V}

/-- The second half of an access does not fail. -/
theorem updateAndEvict_ne_error {c c' : Client σ V} {id : BlockId} {newValue : Option V}
    {path : List ℕ} {contents : List (ℕ × List (Block V))} {e : IntegrityError} :
    updateAndEvict S H c id newValue path contents ≠ some (c', .error e) := by
  intro h
  simp only [updateAndEvict, Option.bind_eq_bind, Option.bind_eq_some_iff] at h
  obtain ⟨_, -, _, -, _, -, _, -, h⟩ := h
  simp at h

/-- **A failed access changes only the position map**, and what its server makes of it. -/
theorem eq_of_verifiedAccessAt_error {c c' : Client σ V} {id : BlockId} {newValue : Option V}
    {oldLeaf newLeaf : ℕ} (hlt : oldLeaf < numLeaves c.depth) {e : IntegrityError}
    (h : verifiedAccessAt S H c id newValue oldLeaf newLeaf = some (c', .error e)) :
    c' = { c with
      positionMap := Function.update c.positionMap id (some newLeaf), server := c'.server } := by
  rw [verifiedAccessAt_eq S H c id newValue newLeaf hlt] at h
  simp only at h
  split_ifs at h
  · obtain ⟨server, -, h⟩ := Option.map_eq_some_iff.1 h
    obtain ⟨rfl, -⟩ := Prod.mk.inj h
    rfl
  · exact absurd h (updateAndEvict_ne_error H)

end Failed

/-- What is left after a failure: the client with the id remapped. -/
theorem Fails.eq {c restored : Client (Buckets V × (ℕ → Digest)) V} {id : BlockId}
    {newValue : Option V} {tape : List ℕ} (h : Fails H c id newValue tape restored)
    (hpos : ∀ leaf, c.positionMap id = some leaf → leaf < numLeaves c.depth)
    (htape : ∀ leaf ∈ tape, leaf < numLeaves c.depth) :
    restored = { c with
      positionMap := Function.update c.positionMap id (some (drawLeaves c id tape).2.1) } := by
  obtain ⟨τ, S, server, failed, rest, hfailed, rfl⟩ := h
  have hdrawn : drawLeaves (c.on server) id tape = drawLeaves c id tape := rfl
  simp only [verifiedAccess, hdrawn, Option.bind_eq_bind, Option.bind_eq_some_iff] at hfailed
  obtain ⟨⟨failed', answer⟩, haccess, hanswer⟩ := hfailed
  obtain ⟨rfl, rfl, -⟩ : failed' = failed ∧ answer = .error .integrityError ∧ _ = rest := by
    simpa only [Option.some.injEq, Prod.mk.injEq] using hanswer
  have hlt : (drawLeaves c id tape).1 < numLeaves (c.on server).depth :=
    (drawLeaves_lt hpos htape).1
  rw [eq_of_verifiedAccessAt_error H hlt haccess]
  rfl

/-! ### A moved position -/

variable {capacity : ℕ} {m : BlockId → Option V}

/-- **A position may move to a path that holds the block.** -/
theorem Inv.remap {c : Client (Buckets V) V} (h : Inv capacity m c) {id : BlockId} {leaf : ℕ}
    (hleaf : leaf < numLeaves c.depth)
    (hon : ∀ node ∈ nodes c.depth, ∀ b ∈ c.server node, b.id = id →
      node ∈ pathNodes c.depth leaf) :
    Inv capacity m { c with positionMap := Function.update c.positionMap id (some leaf) } where
  nodup := h.nodup
  mem_iff := h.mem_iff
  placed node hnode b hb := by
    by_cases hid : b.id = id
    · refine ⟨leaf, by simp [hid], ?_⟩
      exact (mem_pathNodes_iff (mem_nodes.1 hnode).1).1 (hon node hnode b hb hid)
    · simpa only [Function.update_of_ne hid] using h.placed node hnode b hb
  stashed b hb := by
    by_cases hid : b.id = id
    · simp [hid]
    · simpa only [Function.update_of_ne hid] using h.stashed b hb
  leaf_lt i l hl := by
    by_cases hi : i = id
    · subst hi
      simp only [Function.update_self, Option.some.injEq] at hl
      exact hl ▸ hleaf
    · simp only [Function.update_of_ne hi] at hl
      exact h.leaf_lt i l hl
  room := h.room

/-- **Reached clients hold what was written**, and their hashes are right. -/
theorem Reached.inv {depth : ℕ} {c : Client (Buckets V × (ℕ → Digest)) V}
    (h : Reached H depth capacity m c) :
    c.depth = depth ∧ Verified H c ∧ Inv capacity m c.forget := by
  induction h with
  | fresh =>
    obtain ⟨hforget, hdepth, hv⟩ := freshVerified_eq H depth capacity
    exact ⟨hdepth, hv, hforget ▸ Inv.withServer depth capacity⟩
  | @access m c c' id newValue tape rest answer _ htape hok ih =>
    obtain ⟨rfl, hv, hinv⟩ := ih
    obtain ⟨c₁, rest₁, hok₁, -, hinv₁, hv₁, hdepth₁, -⟩ :=
      hv.access H capacity hinv id newValue htape
    obtain ⟨rfl, -⟩ := Prod.mk.inj (Option.some.inj (hok.symm.trans hok₁))
    exact ⟨hdepth₁, hv₁, hinv₁⟩
  | @failed m c restored id newValue tape _ htape hfails hon ih =>
    obtain ⟨rfl, hv, hinv⟩ := ih
    have hpos : ∀ leaf, c.positionMap id = some leaf → leaf < numLeaves c.depth := hinv.leaf_lt id
    obtain rfl := hfails.eq H hpos htape
    exact ⟨rfl, ⟨hv.root, hv.stored⟩, hinv.remap (drawLeaves_lt hpos htape).2 hon⟩

/-- After its position moved, a block is looked for on the new path. -/
theorem exists_read_remapped {c : Client (Buckets V × (ℕ → Digest)) V} (hv : Verified H c)
    (hinv : Inv capacity m c.forget) (id : BlockId) {leaf : ℕ} (hleaf : leaf < numLeaves c.depth) :
    ∃ c', verifiedRun H (integrityCheckedServer V capacity)
      { c with positionMap := Function.update c.positionMap id (some leaf) } [(id, none)] [] =
      some (c', [.ok (lookup id (collected c.forget leaf))]) := by
  have hsome : ∀ b ∈ collected c.forget leaf,
      (Function.update (Function.update c.positionMap id (some leaf)) id (some 0) b.id).isSome =
        true := by
    intro b hb
    by_cases hb' : b.id = id
    · simp [hb']
    · simp only [Function.update_of_ne hb']
      exact hinv.isSome_of_mem ((contents_perm c.forget hleaf).mem_iff.2
        (List.mem_append_left _ hb))
  obtain ⟨chosenPerNode, rest, hev⟩ :=
    @evictChoose_isSome V c.depth capacity _ (pathNodes c.depth leaf) _ hsome
  have hplain := @accessAt_inMemory V capacity
    { c.forget with positionMap := Function.update c.positionMap id (some leaf) } id none leaf 0
  rw [update_none] at hplain
  have hcollected : collected { c.forget with
      positionMap := Function.update c.positionMap id (some leaf) } leaf =
      collected c.forget leaf := rfl
  simp only [hcollected] at hplain
  have hev' : evictChoose c.forget.depth
      (Function.update (Function.update c.positionMap id (some leaf)) id (some 0)) capacity
      (pathNodes c.forget.depth leaf) (collected c.forget leaf) = some (chosenPerNode, rest) := hev
  rw [hev', Option.map_some] at hplain
  have hv' : Verified H
      { c with positionMap := Function.update c.positionMap id (some leaf) } :=
    ⟨hv.root, hv.stored⟩
  obtain ⟨c', haccess, -⟩ := hv'.accessAt H capacity hleaf hplain
  refine ⟨c', ?_⟩
  have hdrawn : drawLeaves { c with positionMap := Function.update c.positionMap id (some leaf) }
      id [] = (leaf, 0, []) := by simp [drawLeaves, randomLeaf]
  simp only [verifiedRun, verifiedAccess, hdrawn, haccess, Option.bind_eq_bind, Option.bind_some]

/-- A block off the new path is lost to the next read. -/
theorem Unharmed.onNewPath {c restored : Client (Buckets V × (ℕ → Digest)) V} {id : BlockId}
    {newValue : Option V} {tape : List ℕ} (hv : Verified H c) (hinv : Inv capacity m c.forget)
    (htape : ∀ leaf ∈ tape, leaf < numLeaves c.depth)
    (hfails : Fails H c id newValue tape restored) (h : Unharmed H capacity m c restored) :
    OnNewPath c id tape := by
  have hpos : ∀ leaf, c.positionMap id = some leaf → leaf < numLeaves c.depth := hinv.leaf_lt id
  have hnew := (drawLeaves_lt hpos htape).2
  obtain rfl := hfails.eq H hpos htape
  intro node hnode b hb hid
  by_contra hoff
  -- a read of the id right after the failure
  have hnil : ∀ leaf ∈ ([] : List ℕ), leaf < numLeaves c.depth := fun leaf hl => (by cases hl)
  obtain ⟨c₁, c₂, answers, hrun, hrun', -⟩ := h [(id, none)] [] [] hnil hnil
  obtain ⟨c₃, hmap, -⟩ := verifiedRun_of_inv H capacity hv hinv [(id, none)] hnil
  obtain ⟨-, rfl⟩ := Prod.mk.inj (Option.some.inj (hrun'.symm.trans hmap))
  have hvalue : m id = some b.value := by
    rw [← hid]
    exact (hinv.mem_iff b).1 (List.mem_append_right _ (List.mem_flatMap.2 ⟨node, hnode, hb⟩))
  obtain ⟨c₄, hread⟩ := exists_read_remapped H hv hinv id hnew
  have hanswer := hrun.symm.trans hread
  simp only [mapAnswers, List.map_cons, List.map_nil, hvalue, Option.some.injEq, Prod.mk.injEq,
    List.cons.injEq, Except.ok.injEq, and_true] at hanswer
  have hfound := (lookup_eq_some (hinv.nodup_collected hnew)).1 hanswer.2.symm
  -- the block is in one place only
  have hnd := ((contents_perm c.forget hnew).map Block.id).nodup_iff.1 hinv.nodup
  rw [List.map_append, List.nodup_append] at hnd
  have hmem : b ∈ (offPath c.depth (drawLeaves c id tape).2.1).flatMap c.server.1 :=
    List.mem_flatMap.2 ⟨node, List.mem_filter.2 ⟨hnode, by simpa using hoff⟩, hb⟩
  exact hnd.2.2 _ (List.mem_map_of_mem hfound) _ (List.mem_map_of_mem hmem) hid.symm

/-- **A failure is harmless exactly if the new path holds the block**: from every reached client,
whatever the server answered. -/
theorem unharmed_iff {depth : ℕ} {c restored : Client (Buckets V × (ℕ → Digest)) V}
    {id : BlockId} {newValue : Option V} {tape : List ℕ} (h : Reached H depth capacity m c)
    (htape : ∀ leaf ∈ tape, leaf < numLeaves depth)
    (hfails : Fails H c id newValue tape restored) :
    Unharmed H capacity m c restored ↔ OnNewPath c id tape := by
  obtain ⟨rfl, hv, hinv⟩ := h.inv
  refine ⟨fun hunharmed => hunharmed.onNewPath H hv hinv htape hfails, fun hon => ?_⟩
  intro ops tape₁ tape₂ htape₁ htape₂
  obtain ⟨hdepth, hv', hinv'⟩ := (h.failed htape hfails hon).inv
  rw [← hdepth] at htape₁
  obtain ⟨c₁, hrun, -, hinv₁, -, -⟩ := verifiedRun_of_inv H capacity hv' hinv' ops htape₁
  obtain ⟨c₂, hrun', -⟩ := verifiedRun_of_inv H capacity hv hinv ops htape₂
  exact ⟨c₁, c₂, _, hrun, hrun', hinv₁.nodup, hinv₁.mem_iff⟩

end Retry

/-! ### A block that is lost -/

/-- A server that has nothing. -/
def emptyHanded : VerifiableServerStorage Unit ℕ where
  readAndClear _ _ := ([], ())
  write _ _ _ := some ()
  bucketCapacity := 1
  nodeHash _ _ := (emptyChild, ())
  setNodeHash _ _ _ := ()

/-- In a tree of two leaves, block 7 is written to the left leaf; a read during which the server
has nothing fails, whichever leaf it draws, and leaves the block on the new path if that is the left
one. -/
theorem exists_failed {leaf : ℕ} (hleaf : leaf ∈ [0, 1]) : ∃ c restored,
    Reached sumHashing 1 1 (writeMap (fun _ => none) 7 (some 10)) c ∧
      Fails sumHashing c 7 none [leaf] restored ∧ (OnNewPath c 7 [leaf] ↔ leaf = 0) := by
  -- the write and the failing read, evaluated
  have hwritten : (verifiedAccess (integrityCheckedServer ℕ 1) sumHashing
      (freshVerified sumHashing 1 1) 7 (some 10) [0, 0]).map
      (fun r => (r.1.server.1 2, r.1.server.1 3, r.1.positionMap 7, r.1.depth)) =
        some ([⟨7, 10⟩], [], some 0, 1) := by
    decide +kernel
  have hread : ∀ leaf ∈ [0, 1], ((verifiedAccess (integrityCheckedServer ℕ 1) sumHashing
      (freshVerified sumHashing 1 1) 7 (some 10) [0, 0]).bind fun r =>
        (verifiedAccess emptyHanded sumHashing (r.1.on ()) 7 none [leaf]).map
          fun r => r.2.1.toBool) = some false := by
    decide +kernel
  specialize hread leaf hleaf
  obtain ⟨⟨c, answer, rest⟩, hok, hstate⟩ := Option.map_eq_some_iff.1 hwritten
  rw [hok, Option.bind_some] at hread
  obtain ⟨⟨failed, answer', rest'⟩, hfailed, hanswer⟩ := Option.map_eq_some_iff.1 hread
  simp only [Prod.mk.injEq] at hstate
  obtain ⟨hbucket, hother, hposition, hdepth⟩ := hstate
  refine ⟨c, failed.on c.server, Reached.fresh.access (by decide) hok,
    ⟨Unit, emptyHanded, (), failed, rest', ?_, rfl⟩, ?_⟩
  · cases answer' with
    | error e => exact hfailed
    | ok value => cases hanswer
  · have hdrawn : (drawLeaves c 7 [leaf]).2.1 = leaf := by
      simp [drawLeaves, hposition, randomLeaf]
    rw [OnNewPath, hdrawn, hdepth]
    rcases List.mem_pair.1 hleaf with rfl | rfl
    · refine iff_of_true (fun node hnode b hb hid => ?_) rfl
      -- the right leaf is empty
      by_cases h3 : node = 3
      · rw [h3, hother] at hb
        cases hb
      · exact (by decide : ∀ node ∈ nodes 1, node ≠ 3 → node ∈ pathNodes 1 0) node hnode h3
    · refine iff_of_false (fun hon => ?_) one_ne_zero
      have h := hon 2 (by decide) ⟨7, 10⟩ (by rw [hbucket]; simp) rfl
      exact absurd h (by decide)

/-- A failing read that moves the block off its path, and one that draws the leaf it was on. -/
theorem unharmed_iff_moved :
    (∃ c restored, Fails sumHashing c 7 none [1] restored ∧
      (Unharmed sumHashing 1 (writeMap (fun _ => none) 7 (some 10)) c restored ↔
        OnNewPath c 7 [1])) ∧
    ∃ c restored, Fails sumHashing c 7 none [0] restored ∧
      Unharmed sumHashing 1 (writeMap (fun _ => none) 7 (some 10)) c restored := by
  constructor
  · obtain ⟨c, restored, hreached, hfails, -⟩ := exists_failed (by decide : 1 ∈ [0, 1])
    exact ⟨c, restored, hfails, unharmed_iff sumHashing hreached (by decide) hfails⟩
  · obtain ⟨c, restored, hreached, hfails, hon⟩ := exists_failed (by decide : 0 ∈ [0, 1])
    exact ⟨c, restored, hfails,
      (unharmed_iff sumHashing hreached (by decide) hfails).2 (hon.2 rfl)⟩

/-- The next read of block 7 does not find it. -/
theorem not_unharmed_moved : ¬ ∀ (m : BlockId → Option ℕ)
    (c restored : Client (Buckets ℕ × (ℕ → Digest)) ℕ) (id : BlockId) (newValue : Option ℕ)
    (tape : List ℕ), Reached sumHashing 1 1 m c → (∀ leaf ∈ tape, leaf < numLeaves 1) →
    Fails sumHashing c id newValue tape restored → Unharmed sumHashing 1 m c restored := by
  intro h
  obtain ⟨c, restored, hreached, hfails, hon⟩ := exists_failed (by decide : 1 ∈ [0, 1])
  have htape : ∀ leaf ∈ [1], leaf < numLeaves 1 := by decide
  obtain ⟨hdepth, hv, hinv⟩ := hreached.inv
  have hunharmed := h _ c restored 7 none [1] hreached htape hfails
  exact one_ne_zero (hon.1 (hunharmed.onNewPath sumHashing hv hinv (by rwa [hdepth]) hfails))

end Oram

end NovaChannel
