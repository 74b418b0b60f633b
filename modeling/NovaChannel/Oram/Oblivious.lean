import NovaChannel.Oram.Refinement
import Mathlib.Data.Fintype.Card
import Mathlib.Data.Fintype.Pi
import Mathlib.Data.List.NodupEquivFin
import Mathlib.Logic.Equiv.Fintype

/-!
# The access pattern says nothing

The server sees which buckets are read and written.  Over all random tapes, the number of tapes
that lead to one view is the same for any two operation lists of one length.

* `traced` : a server that records the calls it gets;
* `revealed` : the leaves whose paths a run reads; each is drawn once and revealed at most once, so
  they sit at different places of the tape (`nodup_revealed`);
* `exists_perm_map` : two lists without repetitions differ by a permutation;
* `oblivious` : permuting the tape turns the view of one run into that of the other.
-/

namespace NovaChannel

namespace Oram

/-! ### What the server sees -/

/-- A call the server gets, with the bucket it names. -/
inductive ServerCall
  | readAndClear (node : ℕ)
  | write (node : ℕ)
  deriving DecidableEq

section Traced

variable {σ V : Type}

/-- A server that records the calls it gets. -/
def traced (S : ServerStorage σ V) : ServerStorage (σ × List ServerCall) V where
  readAndClear s node :=
    ((S.readAndClear s.1 node).1, ((S.readAndClear s.1 node).2, s.2 ++ [.readAndClear node]))
  write s node blocks := (S.write s.1 node blocks).map fun s' => (s', s.2 ++ [.write node])
  bucketCapacity := S.bucketCapacity

/-- The client of the server below. -/
def Client.untraced (c : Client (σ × List ServerCall) V) : Client σ V :=
  { depth := c.depth, server := c.server.1, positionMap := c.positionMap, stash := c.stash
    root := c.root }

/-- The client of the recording server, which has seen the calls `t`. -/
def Client.withTrace (c : Client σ V) (t : List ServerCall) : Client (σ × List ServerCall) V :=
  { depth := c.depth, server := (c.server, t), positionMap := c.positionMap, stash := c.stash
    root := c.root }

/-- The calls of one access. -/
def pathCalls (depth leaf : ℕ) : List ServerCall :=
  (pathNodes depth leaf).map .readAndClear ++ (pathNodes depth leaf).map .write

variable (S : ServerStorage σ V)

theorem readPath_traced (c : Client σ V) (t : List ServerCall) (path : List ℕ) :
    path.foldl (fun c node =>
      let (blocks, server) := (traced S).readAndClear c.server node
      { c with stash := c.stash ++ blocks, server := server }) (c.withTrace t) =
    (path.foldl (fun c node =>
      let (blocks, server) := S.readAndClear c.server node
      { c with stash := c.stash ++ blocks, server := server }) c).withTrace
        (t ++ path.map .readAndClear) := by
  induction path generalizing c t with
  | nil => simp
  | cons node path ih =>
    have := ih { c with stash := c.stash ++ (S.readAndClear c.server node).1
                        server := (S.readAndClear c.server node).2 } (t ++ [.readAndClear node])
    rw [List.foldl_cons, List.foldl_cons, List.map_cons, ← List.singleton_append,
      ← List.append_assoc]
    exact this

theorem evictPath_traced (c : Client σ V) (t : List ServerCall) (path : List ℕ) :
    evictPath (traced S) (c.withTrace t) path =
      (evictPath S c path).map fun c' => c'.withTrace (t ++ path.map .write) := by
  induction path generalizing c t with
  | nil => simp [evictPath]
  | cons node path ih =>
    simp only [evictPath, Option.bind_eq_bind]
    have hchoose : choose (c.withTrace t).depth (c.withTrace t).positionMap node
        (traced S).bucketCapacity (c.withTrace t).stash =
        choose c.depth c.positionMap node S.bucketCapacity c.stash := rfl
    rw [hchoose]
    cases choose c.depth c.positionMap node S.bucketCapacity c.stash with
    | none => rfl
    | some p =>
      simp only [Option.bind_some]
      cases hwrite : S.write c.server node p.1 with
      | none => simp [traced, Client.withTrace, hwrite]
      | some s =>
        have := ih { c with stash := p.2, server := s } (t ++ [.write node])
        simp only [traced, Client.withTrace, hwrite, Option.map_some, Option.bind_some] at this ⊢
        rw [this]
        simp [List.append_assoc]

theorem readPath_frame (c : Client σ V) (path : List ℕ) :
    (path.foldl (fun c node =>
      let (blocks, server) := S.readAndClear c.server node
      { c with stash := c.stash ++ blocks, server := server }) c).depth = c.depth ∧
    (path.foldl (fun c node =>
      let (blocks, server) := S.readAndClear c.server node
      { c with stash := c.stash ++ blocks, server := server }) c).positionMap = c.positionMap := by
  induction path generalizing c with
  | nil => exact ⟨rfl, rfl⟩
  | cons node path ih => exact ih _

theorem evictPath_frame {c c' : Client σ V} {path : List ℕ} (h : evictPath S c path = some c') :
    c'.depth = c.depth ∧ c'.positionMap = c.positionMap := by
  induction path generalizing c with
  | nil =>
    obtain rfl := Option.some.inj h
    exact ⟨rfl, rfl⟩
  | cons node path ih =>
    simp only [evictPath, Option.bind_eq_bind, Option.bind_eq_some_iff] at h
    obtain ⟨p, -, s, -, h⟩ := h
    have hframe := ih h
    exact hframe

/-- An access moves the accessed block's position and no other. -/
theorem accessAt_frame {c c' : Client σ V} {id : BlockId} {newValue answer : Option V}
    {oldLeaf newLeaf : ℕ} (h : accessAt S c id newValue oldLeaf newLeaf = some (c', answer)) :
    c'.depth = c.depth ∧
      c'.positionMap = Function.update c.positionMap id (some newLeaf) := by
  simp only [accessAt, Option.bind_eq_bind, Option.bind_eq_some_iff] at h
  obtain ⟨c₁, hev, h⟩ := h
  obtain ⟨hdepth, hpos⟩ := evictPath_frame S hev
  obtain ⟨hdepth', hpos'⟩ := readPath_frame S
    { c with positionMap := Function.update c.positionMap id (some newLeaf) }
    (pathNodes c.depth oldLeaf)
  obtain rfl := (Prod.mk.inj (Option.some.inj h)).1
  exact ⟨hdepth.trans hdepth', hpos.trans hpos'⟩

/-- The client with the path of an access read. -/
def readFor (c : Client σ V) (id : BlockId) (oldLeaf newLeaf : ℕ) : Client σ V :=
  readPathIntoStash S { c with positionMap := Function.update c.positionMap id (some newLeaf) }
    oldLeaf

theorem accessAt_eq (c : Client σ V) (id : BlockId) (newValue : Option V)
    (oldLeaf newLeaf : ℕ) :
    accessAt S c id newValue oldLeaf newLeaf =
      (evictPath S { readFor S c id oldLeaf newLeaf with
          stash := update id newValue (readFor S c id oldLeaf newLeaf).stash }
        (pathNodes c.depth oldLeaf)).map fun c' =>
          (c', lookup id (readFor S c id oldLeaf newLeaf).stash) := by
  have hdepth : (readFor S c id oldLeaf newLeaf).depth = c.depth := (readPath_frame S _ _).1
  rw [← hdepth]
  simp only [accessAt, Option.bind_eq_bind]
  change (evictPath S { readFor S c id oldLeaf newLeaf with
    stash := update id newValue (readFor S c id oldLeaf newLeaf).stash }
    (pathNodes (readFor S c id oldLeaf newLeaf).depth oldLeaf)).bind _ = _
  cases evictPath S { readFor S c id oldLeaf newLeaf with
    stash := update id newValue (readFor S c id oldLeaf newLeaf).stash }
    (pathNodes (readFor S c id oldLeaf newLeaf).depth oldLeaf) <;> rfl

theorem accessAt_traced (c : Client σ V) (t : List ServerCall) (id : BlockId)
    (newValue : Option V) (oldLeaf newLeaf : ℕ) :
    accessAt (traced S) (c.withTrace t) id newValue oldLeaf newLeaf =
      (accessAt S c id newValue oldLeaf newLeaf).map fun r =>
        (r.1.withTrace (t ++ pathCalls c.depth oldLeaf), r.2) := by
  have hread : readFor (traced S) (c.withTrace t) id oldLeaf newLeaf =
      (readFor S c id oldLeaf newLeaf).withTrace
        (t ++ (pathNodes c.depth oldLeaf).map .readAndClear) :=
    readPath_traced S
      { c with positionMap := Function.update c.positionMap id (some newLeaf) } t
      (pathNodes c.depth oldLeaf)
  rw [accessAt_eq, accessAt_eq, hread]
  have hevict := evictPath_traced S { readFor S c id oldLeaf newLeaf with
      stash := update id newValue (readFor S c id oldLeaf newLeaf).stash }
    (t ++ (pathNodes c.depth oldLeaf).map .readAndClear) (pathNodes c.depth oldLeaf)
  change (evictPath (traced S) (Client.withTrace { readFor S c id oldLeaf newLeaf with
    stash := update id newValue (readFor S c id oldLeaf newLeaf).stash } _)
    (pathNodes c.depth oldLeaf)).map _ = _
  rw [hevict, Option.map_map, Option.map_map]
  congr 1
  funext c'
  simp [pathCalls, List.append_assoc, Client.withTrace]

/-- The leaves whose paths a run reads, from the leaves it draws. -/
def revealed {α : Type} : (BlockId → Option α) → List BlockId → List α → List α
  | _, [], _ => []
  | positions, id :: ids, tape =>
    match positions id, tape with
    | some leaf, newLeaf :: tape =>
      leaf :: revealed (Function.update positions id (some newLeaf)) ids tape
    | none, oldLeaf :: newLeaf :: tape =>
      oldLeaf :: revealed (Function.update positions id (some newLeaf)) ids tape
    | _, _ => []

theorem run_traced (c : Client σ V) (t : List ServerCall) (ops : List (Operation V))
    {tape : List ℕ} (hlen : 2 * ops.length ≤ tape.length) :
    run (traced S) (c.withTrace t) ops tape = (run S c ops tape).map fun r =>
      (r.1.withTrace (t ++ (revealed c.positionMap (ops.map Prod.fst) tape).flatMap
        (pathCalls c.depth)), r.2) := by
  induction ops generalizing c t tape with
  | nil => simp [run, revealed]
  | cons op ops ih =>
    obtain ⟨id, newValue⟩ := op
    rw [List.length_cons] at hlen
    -- one step, once the leaves are drawn
    have hstep : ∀ oldLeaf newLeaf tape', drawLeaves c id tape = (oldLeaf, newLeaf, tape') →
        2 * ops.length ≤ tape'.length →
        revealed c.positionMap (id :: ops.map Prod.fst) tape = oldLeaf ::
          revealed (Function.update c.positionMap id (some newLeaf)) (ops.map Prod.fst) tape' →
        run (traced S) (c.withTrace t) ((id, newValue) :: ops) tape =
          (run S c ((id, newValue) :: ops) tape).map fun r =>
            (r.1.withTrace (t ++ (revealed c.positionMap (id :: ops.map Prod.fst) tape).flatMap
              (pathCalls c.depth)), r.2) := by
      intro oldLeaf newLeaf tape' hdraw hlen' hrev
      have hdraw' : drawLeaves (c.withTrace t) id tape = (oldLeaf, newLeaf, tape') := hdraw
      simp only [run, access, hdraw, hdraw', Option.bind_eq_bind, accessAt_traced]
      cases hacc : accessAt S c id newValue oldLeaf newLeaf with
      | none => rfl
      | some r =>
        obtain ⟨c₁, answer⟩ := r
        obtain ⟨hdepth, hpos⟩ := accessAt_frame S hacc
        simp only [Option.map_some, Option.bind_some]
        rw [ih c₁ (t ++ pathCalls c.depth oldLeaf) hlen', hpos, hdepth, hrev]
        cases run S c₁ ops tape' with
        | none => rfl
        | some r => simp [List.append_assoc]
    cases hpos : c.positionMap id with
    | some leaf =>
      obtain ⟨x, tape, rfl⟩ : ∃ x rest, tape = x :: rest :=
        List.exists_cons_of_length_pos (by omega)
      refine hstep leaf x tape (by simp [drawLeaves, hpos, randomLeaf]) ?_
        (by simp [revealed, hpos])
      rw [List.length_cons] at hlen
      omega
    | none =>
      obtain ⟨x, tape, rfl⟩ : ∃ x rest, tape = x :: rest :=
        List.exists_cons_of_length_pos (by omega)
      rw [List.length_cons] at hlen
      obtain ⟨y, tape, rfl⟩ : ∃ y rest, tape = y :: rest :=
        List.exists_cons_of_length_pos (by omega)
      rw [List.length_cons] at hlen
      exact hstep x y tape (by simp [drawLeaves, hpos, randomLeaf]) (by omega)
        (by simp [revealed, hpos])

end Traced

/-! ### Where the revealed leaves come from -/

section Revealed

variable {α γ : Type}

/-- The revealed leaves are picked from the tape by place, whatever the leaves are. -/
theorem revealed_map (f : α → γ) (positions : BlockId → Option α) (ids : List BlockId)
    (tape : List α) :
    revealed (fun id => (positions id).map f) ids (tape.map f) =
      (revealed positions ids tape).map f := by
  have hupdate : ∀ (p : BlockId → Option α) id x,
      Function.update (fun id => (p id).map f) id (some (f x)) =
        fun i => (Function.update p id (some x) i).map f := by
    intro p id x
    funext i
    by_cases hi : i = id
    · subst hi
      simp
    · simp [Function.update_of_ne hi]
  induction ids generalizing positions tape with
  | nil => rfl
  | cons id ids ih =>
    cases hpos : positions id with
    | some leaf =>
      cases tape with
      | nil => simp [revealed, hpos]
      | cons x tape => simp [revealed, hpos, hupdate, ih]
    | none =>
      rcases tape with _ | ⟨x, _ | ⟨y, tape⟩⟩
      · simp [revealed, hpos]
      · simp [revealed, hpos]
      · simp [revealed, hpos, hupdate, ih]

theorem length_revealed (positions : BlockId → Option α) (ids : List BlockId) {tape : List α}
    (h : 2 * ids.length ≤ tape.length) : (revealed positions ids tape).length = ids.length := by
  induction ids generalizing positions tape with
  | nil => rfl
  | cons id ids ih =>
    rw [List.length_cons] at h
    obtain ⟨x, tape, rfl⟩ : ∃ x rest, tape = x :: rest :=
      List.exists_cons_of_length_pos (by omega)
    rw [List.length_cons] at h
    cases hpos : positions id with
    | some leaf => simp [revealed, hpos, ih _ (show 2 * ids.length ≤ tape.length by omega)]
    | none =>
      obtain ⟨y, tape, rfl⟩ : ∃ y rest, tape = y :: rest :=
        List.exists_cons_of_length_pos (by omega)
      rw [List.length_cons] at h
      simp [revealed, hpos, ih _ (show 2 * ids.length ≤ tape.length by omega)]

/-- No draw is revealed twice: once a path is read, its block has a new leaf. -/
theorem nodup_revealed {positions : BlockId → Option α} (ids : List BlockId) {tape : List α}
    (hinj : ∀ i j l, positions i = some l → positions j = some l → i = j) (hnd : tape.Nodup)
    (hdisj : ∀ i l, positions i = some l → l ∉ tape) :
    (revealed positions ids tape).Nodup ∧
      ∀ l ∈ revealed positions ids tape, l ∈ tape ∨ ∃ i, positions i = some l := by
  induction ids generalizing positions tape with
  | nil => exact ⟨List.nodup_nil, fun l hl => (by cases hl)⟩
  | cons id ids ih =>
    -- the accessed block moves to the drawn leaf `x`
    have hmove : ∀ x (rest : List α), (x :: rest).Nodup → (∀ i l, positions i = some l → l ∉ x :: rest) →
        (revealed (Function.update positions id (some x)) ids rest).Nodup ∧
          ∀ l ∈ revealed (Function.update positions id (some x)) ids rest,
            l ∈ x :: rest ∨ ∃ i, i ≠ id ∧ positions i = some l := by
      intro x rest hxnd hxdisj
      obtain ⟨hx, hrest⟩ := List.nodup_cons.1 hxnd
      have hold : ∀ i l, Function.update positions id (some x) i = some l →
          (i = id ∧ l = x) ∨ (i ≠ id ∧ positions i = some l) := by
        intro i l hl
        by_cases hi : i = id
        · subst hi
          rw [Function.update_self, Option.some.injEq] at hl
          exact .inl ⟨rfl, hl.symm⟩
        · rw [Function.update_of_ne hi] at hl
          exact .inr ⟨hi, hl⟩
      have hinj' : ∀ i j l, Function.update positions id (some x) i = some l →
          Function.update positions id (some x) j = some l → i = j := by
        intro i j l hi hj
        rcases hold i l hi with ⟨hi, hx'⟩ | ⟨-, hi⟩
        · rcases hold j l hj with ⟨hj, -⟩ | ⟨-, hj⟩
          · exact hi.trans hj.symm
          · exact absurd (hx' ▸ List.mem_cons_self) (hxdisj j l hj)
        · rcases hold j l hj with ⟨-, hx'⟩ | ⟨-, hj⟩
          · exact absurd (hx' ▸ List.mem_cons_self) (hxdisj i l hi)
          · exact hinj i j l hi hj
      have hdisj' : ∀ i l, Function.update positions id (some x) i = some l → l ∉ rest := by
        intro i l hl
        rcases hold i l hl with ⟨-, rfl⟩ | ⟨-, hi⟩
        · exact hx
        · exact fun hmem => hxdisj i l hi (List.mem_cons_of_mem _ hmem)
      obtain ⟨h1, h2⟩ := ih hinj' hrest hdisj'
      refine ⟨h1, fun l hl => ?_⟩
      rcases h2 l hl with hl | ⟨i, hi⟩
      · exact .inl (List.mem_cons_of_mem _ hl)
      · rcases hold i l hi with ⟨-, rfl⟩ | ⟨hne, hi⟩
        · exact .inl List.mem_cons_self
        · exact .inr ⟨i, hne, hi⟩
    cases hpos : positions id with
    | some leaf =>
      cases tape with
      | nil => simp [revealed, hpos]
      | cons x tape =>
        obtain ⟨h1, h2⟩ := hmove x tape hnd hdisj
        simp only [revealed, hpos]
        refine ⟨List.nodup_cons.2 ⟨fun hmem => ?_, h1⟩, fun l hl => ?_⟩
        · rcases h2 leaf hmem with hl | ⟨i, hne, hi⟩
          · exact hdisj id leaf hpos hl
          · exact hne (hinj i id leaf hi hpos)
        · rcases List.mem_cons.1 hl with rfl | hl
          · exact .inr ⟨id, hpos⟩
          · exact (h2 l hl).imp_right fun ⟨i, _, hi⟩ => ⟨i, hi⟩
    | none =>
      rcases tape with _ | ⟨x, _ | ⟨y, tape⟩⟩
      · simp [revealed, hpos]
      · simp [revealed, hpos]
      · obtain ⟨hx, hnd'⟩ := List.nodup_cons.1 hnd
        obtain ⟨h1, h2⟩ := hmove y tape hnd' fun i l hi hmem =>
          hdisj i l hi (List.mem_cons_of_mem _ hmem)
        simp only [revealed, hpos]
        refine ⟨List.nodup_cons.2 ⟨fun hmem => ?_, h1⟩, fun l hl => ?_⟩
        · rcases h2 x hmem with hl | ⟨i, -, hi⟩
          · exact hx hl
          · exact hdisj i x hi List.mem_cons_self
        · rcases List.mem_cons.1 hl with rfl | hl
          · exact .inl List.mem_cons_self
          · rcases h2 l hl with hl | ⟨i, -, hi⟩
            · exact .inl (List.mem_cons_of_mem _ hl)
            · exact .inr ⟨i, hi⟩

/-- Two lists without repetitions differ by a permutation. -/
theorem exists_perm_map [Fintype α] [DecidableEq α] {l l' : List α} (h : l.Nodup) (h' : l'.Nodup)
    (hlen : l.length = l'.length) : ∃ g : Equiv.Perm α, l.map g = l' := by
  let e : {x // x ∈ l} ≃ {x // x ∈ l'} :=
    (h.getEquiv l).symm.trans ((finCongr hlen).trans (h'.getEquiv l'))
  refine ⟨e.extendSubtype, List.ext_getElem (by simp [hlen]) fun i hi hi' => ?_⟩
  have hmem : l[i] ∈ l := List.getElem_mem _
  rw [List.getElem_map, Equiv.extendSubtype_apply_of_mem e _ hmem]
  simp [e, List.Nodup.getEquiv, h.idxOf_getElem]

end Revealed

/-! ### Obliviousness -/

section Oblivious

variable {V : Type}

/-- What the server sees of a run of a fresh client. -/
def view (depth capacity : ℕ) (ops : List (Operation V)) (tape : List ℕ) :
    Option (List ServerCall) :=
  (run (traced (inMemoryServer V capacity))
    (Client.withServer depth ((fun _ => []), [])) ops tape).map fun r => r.1.server.2

/-- The tape of `k` draws. -/
def tapeOf {depth k : ℕ} (draws : Fin k → Fin (numLeaves depth)) : List ℕ :=
  (List.finRange k).map fun i => (draws i : ℕ)

/-- The server sees the paths of the revealed leaves. -/
theorem view_eq (depth capacity : ℕ) (ops : List (Operation V)) {k : ℕ}
    (hk : 2 * ops.length ≤ k) (draws : Fin k → Fin (numLeaves depth)) :
    view depth capacity ops (tapeOf draws) =
      some (((revealed (fun _ => none) (ops.map Prod.fst) (List.finRange k)).map
        fun i => (draws i : ℕ)).flatMap (pathCalls depth)) := by
  have htape : ∀ leaf ∈ tapeOf draws, leaf < numLeaves depth := by
    intro leaf hleaf
    obtain ⟨i, -, rfl⟩ := List.mem_map.1 hleaf
    exact (draws i).isLt
  obtain ⟨c, hrun, -⟩ := run_of_inv (Inv.withServer (V := V) depth capacity) ops htape
  have htraced := run_traced (inMemoryServer V capacity)
    (Client.withServer depth fun _ => ([] : List (Block V))) [] ops
    (show 2 * ops.length ≤ (tapeOf draws).length by simpa [tapeOf] using hk)
  rw [hrun, Option.map_some] at htraced
  have hmap := revealed_map (fun i => (draws i : ℕ)) (fun _ => none) (ops.map Prod.fst)
    (List.finRange k)
  rw [view]
  change Option.map _ (run (traced (inMemoryServer V capacity))
    ((Client.withServer depth fun _ => ([] : List (Block V))).withTrace []) ops (tapeOf draws)) = _
  rw [htraced, Option.map_some, ← hmap]
  rfl

/-- **Obliviousness**: for any two operation lists of length `n` and any view, as many tapes of
`2 * n` draws lead to the view in the one run as in the other. -/
theorem oblivious (depth capacity n : ℕ) {ops ops' : List (Operation V)} (hops : ops.length = n)
    (hops' : ops'.length = n) (calls : List ServerCall) :
    Fintype.card {draws : Fin (2 * n) → Fin (numLeaves depth) //
        view depth capacity ops (tapeOf draws) = some calls} =
      Fintype.card {draws : Fin (2 * n) → Fin (numLeaves depth) //
        view depth capacity ops' (tapeOf draws) = some calls} := by
  have hnd : ∀ ops : List (Operation V), (revealed (fun _ => none) (ops.map Prod.fst)
      (List.finRange (2 * n))).Nodup := fun ops =>
    (nodup_revealed _ (fun i j l hi => by cases hi) (List.nodup_finRange _)
      fun i l hi => by cases hi).1
  have hlen : ∀ ops : List (Operation V), ops.length = n → (revealed (fun _ => none)
      (ops.map Prod.fst) (List.finRange (2 * n))).length = n := fun ops h => by
    rw [length_revealed _ _ (by simp [h]), List.length_map, h]
  obtain ⟨g, hg⟩ := exists_perm_map (hnd ops) (hnd ops') ((hlen ops hops).trans (hlen ops' hops').symm)
  refine Fintype.card_congr ((g.arrowCongr (Equiv.refl _)).subtypeEquiv fun draws => ?_)
  rw [view_eq depth capacity ops (by omega), view_eq depth capacity ops' (by omega), ← hg,
    List.map_map]
  simp [Function.comp_def, Equiv.arrowCongr]

/-- A block read twice looks like two blocks read once. -/
theorem oblivious_two :
    Fintype.card {draws : Fin (2 * 2) → Fin (numLeaves 3) //
        view 3 4 [((7 : BlockId), some 10), (7, none)] (tapeOf draws) =
          view 3 4 [((7 : BlockId), some 10), (7, none)] [0, 0, 0]} =
      Fintype.card {draws : Fin (2 * 2) → Fin (numLeaves 3) //
        view 3 4 [((7 : BlockId), some 10), (8, none)] (tapeOf draws) =
          view 3 4 [((7 : BlockId), some 10), (7, none)] [0, 0, 0]} := by
  have hsome : (view 3 4 [((7 : BlockId), some 10), (7, none)] [0, 0, 0]).isSome = true := by
    decide +kernel
  obtain ⟨calls, hcalls⟩ := Option.isSome_iff_exists.1 hsome
  simp only [hcalls]
  exact oblivious 3 4 2 rfl rfl calls

end Oblivious

end Oram

end NovaChannel
