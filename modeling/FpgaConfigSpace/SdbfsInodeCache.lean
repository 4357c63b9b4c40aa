import FpgaConfigSpace.SdbfsInode

/-! # What the inode cache makes of a path

    `iget_locked` knows an inode by its number, which is the offset of its record;
    the base address of an inode comes from the parent through which it was reached
    first.  The lookups are walks through a cache by number, over the graph of the
    tables of the image: they depend on the path alone exactly if no record is
    reached below different bases. -/

namespace SdbfsInodeCache

open BigEndian SdbRecord SdbfsInode MemoWalk

variable {w : Nat}

/-! ## The graph of the image -/

/-- Names and numbers in the image, without a cache. -/
def imageGraph (sd : SdbfsDev w) : Graph (BitVec w) DName (Node w) where
  find := fun node name =>
    match node.kind with
    | .directory _ baseSdb => entryInum (readWholeDir sd baseSdb) baseSdb name.chars
    | _ => none
  make := fun node inum =>
    match node.kind with
    | .directory baseData _ => newNode sd baseData inum
    | _ => none

/-- What a path leads to in the image. -/
def resolve (sd : SdbfsDev w) (path : List DName) : Option (Option (Node w)) :=
  walk (imageGraph sd) (rootNode sd) path

/-! ## The lookups are walks through the cache -/

/-- The inode cache without the tables that were read. -/
def nodes (cache : ICache w) : Cache (BitVec w) (Node w) := fun inum =>
  (cache inum).map Inode.toNode

/-- The table kept in an inode is the one on the device. -/
def TablesOk (sd : SdbfsDev w) (cache : ICache w) : Prop :=
  ∀ inum ino, cache inum = some ino → ino.files = [] ∨
    ∃ baseData baseSdb, ino.kind = .directory baseData baseSdb ∧
      ino.files = readWholeDir sd baseSdb

/-- One inode more, as a node. -/
theorem nodes_update (cache : ICache w) (inum : BitVec w) (ino : Inode w) :
    nodes (Function.update cache inum (some ino)) =
      Function.update (nodes cache) inum (some ino.toNode) := by
  ext1 k
  by_cases hk : k = inum
  · subst hk
    rw [nodes, Function.update_self, Function.update_self]
    rfl
  · rw [nodes, Function.update_of_ne hk, Function.update_of_ne hk]
    rfl

/-- Reading the table of an inode changes none of the nodes. -/
theorem nodes_files {cache : ICache w} {inum : BitVec w} {dir : Inode w}
    (h : cache inum = some dir) (files : List Info) :
    nodes (Function.update cache inum (some { dir with files := files })) = nodes cache := by
  rw [nodes_update]
  refine Function.update_eq_self_iff.mpr ?_
  rw [nodes, h]
  rfl

/-- An inode with no table, or the one of its directory, keeps them right. -/
theorem TablesOk.update {sd : SdbfsDev w} {cache : ICache w} (h : TablesOk sd cache)
    {inum : BitVec w} {ino : Inode w} (hino : ino.files = [] ∨
      ∃ baseData baseSdb, ino.kind = .directory baseData baseSdb ∧
        ino.files = readWholeDir sd baseSdb) :
    TablesOk sd (Function.update cache inum (some ino)) := by
  intro k ino' hk
  by_cases hki : k = inum
  · subst hki
    rw [Function.update_self] at hk
    cases hk
    exact hino
  · rw [Function.update_of_ne hki] at hk
    exact h k ino' hk

section lookup

variable {sd : SdbfsDev w} {cache : ICache w}

/-- `sdbfs_iget` is a step through the cache. -/
theorem sdbfsIget_eq (node : Node w) {baseData baseSdb : BitVec w}
    (hkind : node.kind = .directory baseData baseSdb) (hok : TablesOk sd cache) (inum : BitVec w) :
    match sdbfsIget sd cache baseData inum with
    | none => nodeAt (imageGraph sd) (nodes cache) node inum = none
    | some cache' => TablesOk sd cache' ∧ ∃ ino, cache' inum = some ino ∧
        nodeAt (imageGraph sd) (nodes cache) node inum = some (nodes cache', ino.toNode) := by
  have hmake : (imageGraph sd).make node inum = newNode sd baseData inum := by
    simp only [imageGraph, hkind]
  rw [sdbfsIget, nodeAt, hmake]
  cases hc : cache inum with
  | some ino =>
      refine ⟨hok, ino, hc, ?_⟩
      rw [nodes, hc]
      rfl
  | none =>
      have hn : nodes cache inum = none := by rw [nodes, hc]; rfl
      rw [hn]
      cases newNode sd baseData inum with
      | none => rfl
      | some new =>
          refine ⟨hok.update (Or.inl rfl), { new with files := [] }, Function.update_self .., ?_⟩
          rw [nodes_update]
          rfl

/-- The lookups along a path are a walk through the cache of nodes. -/
theorem walkPath_eq : ∀ (names : List DName) {cache : ICache w} {inum : BitVec w}
    {dir : Inode w}, TablesOk sd cache → cache inum = some dir →
    match walkPath sd cache inum names with
    | none => cachedWalk (imageGraph sd) (nodes cache) dir.toNode names = none
    | some (cache', r) => TablesOk sd cache' ∧
        cachedWalk (imageGraph sd) (nodes cache) dir.toNode names =
          some (nodes cache', r.bind (nodes cache')) := by
  intro names
  induction names with
  | nil =>
      intro cache inum dir hok hdir
      refine ⟨hok, ?_⟩
      show some (nodes cache, some dir.toNode) = some (nodes cache, nodes cache inum)
      rw [nodes, hdir]
      rfl
  | cons name names ih =>
      intro cache inum dir hok hdir
      rw [walkPath, hdir]
      simp only [sdbfsLookup]
      cases hkind : dir.kind with
      | file baseData =>
          refine ⟨hok, ?_⟩
          rw [cachedWalk]
          simp only [imageGraph, hkind]
          rfl
      | other =>
          refine ⟨hok, ?_⟩
          rw [cachedWalk]
          simp only [imageGraph, hkind]
          rfl
      | directory baseData baseSdb =>
          have hfiles : (if dir.files = [] then readWholeDir sd baseSdb else dir.files) =
              readWholeDir sd baseSdb := by
            by_cases hempty : dir.files = []
            · exact if_pos hempty
            · rcases hok inum dir hdir with hnil | ⟨bd, bs, hk, hf⟩
              · exact absurd hnil hempty
              · rw [hkind] at hk
                cases hk
                rw [if_neg hempty, hf]
          have hfind : (imageGraph sd).find dir.toNode name =
              entryInum (readWholeDir sd baseSdb) baseSdb name.chars := by
            simp only [imageGraph, hkind]
          have hok' : TablesOk sd (Function.update cache inum
              (some { dir with files := readWholeDir sd baseSdb })) :=
            hok.update (Or.inr ⟨baseData, baseSdb, hkind, rfl⟩)
          have hnodes := nodes_files hdir (readWholeDir sd baseSdb)
          simp only [hfiles]
          rw [cachedWalk, hfind]
          cases entryInum (readWholeDir sd baseSdb) baseSdb name.chars with
          | none =>
              refine ⟨hok', ?_⟩
              rw [hnodes]
              rfl
          | some k =>
              have hget := sdbfsIget_eq dir.toNode hkind hok' k
              rw [hnodes] at hget
              simp only
              cases higet : sdbfsIget sd (Function.update cache inum
                  (some { dir with files := readWholeDir sd baseSdb })) baseData k with
              | none =>
                  rw [higet] at hget
                  simp only at hget
                  simp only [Option.map_none, hget]
              | some cache' =>
                  rw [higet] at hget
                  obtain ⟨hok'', ino, hino, hget⟩ := hget
                  simp only [Option.map_some, hget]
                  exact ih hok'' hino

/-- The root inode is in the cache, and the tables kept are those on the device. -/
structure CacheOk (sd : SdbfsDev w) (cache : ICache w) : Prop where
  tables : TablesOk sd cache
  root : ∃ dir, cache (SDBFS_ROOT w) = some dir ∧ dir.toNode = rootNode sd

/-- The cache is right when the file system is mounted. -/
theorem mounted_ok (sd : SdbfsDev w) : CacheOk sd (mounted sd) := by
  refine ⟨?_, { rootNode sd with files := [] }, Function.update_self .., rfl⟩
  have hempty : TablesOk sd (fun _ => none) := by
    intro inum ino h
    cases h
  exact hempty.update (Or.inl rfl)

/-- **A lookup is a walk of the graph**, with its cache. -/
theorem lookupPath_eq (h : CacheOk sd cache) (path : List DName) :
    match lookupPath sd cache path with
    | none => cachedWalk (imageGraph sd) (nodes cache) (rootNode sd) path = none
    | some (cache', r) => CacheOk sd cache' ∧
        cachedWalk (imageGraph sd) (nodes cache) (rootNode sd) path = some (nodes cache', r) := by
  obtain ⟨dir, hdir, hnode⟩ := h.root
  have hwalk := walkPath_eq path h.tables hdir
  rw [lookupPath]
  rw [hnode] at hwalk
  cases hw : walkPath sd cache (SDBFS_ROOT w) path with
  | none =>
      rw [hw] at hwalk
      exact hwalk
  | some r =>
      obtain ⟨cache', r⟩ := r
      rw [hw] at hwalk
      obtain ⟨hok, hwalk⟩ := hwalk
      refine ⟨⟨hok, ?_⟩, hwalk⟩
      have hroot := cachedWalk_keeps hwalk (SDBFS_ROOT w) (rootNode sd) (by
        rw [nodes, hdir]
        exact congrArg some hnode)
      exact Option.map_eq_some_iff.mp hroot

/-- By induction, so is a history of lookups. -/
theorem lookupPaths_eq : ∀ (paths : List (List DName)) {cache : ICache w},
    CacheOk sd cache →
    match lookupPaths sd cache paths with
    | none => cachedRun (imageGraph sd) (rootNode sd) (nodes cache) paths = none
    | some cache' => CacheOk sd cache' ∧
        cachedRun (imageGraph sd) (rootNode sd) (nodes cache) paths = some (nodes cache') := by
  intro paths
  induction paths with
  | nil =>
      intro cache h
      exact ⟨h, rfl⟩
  | cons path paths ih =>
      intro cache h
      have hpath := lookupPath_eq h path
      rw [lookupPaths, cachedRun]
      cases hl : lookupPath sd cache path with
      | none =>
          rw [hl] at hpath
          simp only at hpath
          simp only [hpath]
      | some r =>
          obtain ⟨cache', r⟩ := r
          rw [hl] at hpath
          simp only [hpath.2]
          exact ih hpath.1

end lookup

/-! ## Paths that do not depend on what was looked up before -/

/-- Whatever was looked up since the file system was mounted, a path leads to the
    inode, with its record and bases, that it leads to in the image. -/
def OrderIndependent (sd : SdbfsDev w) : Prop :=
  ∀ history cache, lookupPaths sd (mounted sd) history = some cache →
    ∀ path, (lookupPath sd cache path).map Prod.snd = resolve sd path

/-- What a lookup finds is what the walk finds. -/
theorem lookupPath_snd {sd : SdbfsDev w} {cache : ICache w} (h : CacheOk sd cache)
    (path : List DName) : (lookupPath sd cache path).map Prod.snd =
      (cachedWalk (imageGraph sd) (nodes cache) (rootNode sd) path).map Prod.snd := by
  have hpath := lookupPath_eq h path
  cases hlp : lookupPath sd cache path with
  | none =>
      rw [hlp] at hpath
      simp only at hpath
      rw [hpath]
      rfl
  | some r =>
      rw [hlp] at hpath
      rw [hpath.2]
      rfl

/-- The order of lookups does not matter exactly if the cache is transparent. -/
theorem orderIndependent_iff (sd : SdbfsDev w) : OrderIndependent sd ↔
    Transparent (imageGraph sd) (rootNode sd) (nodes (mounted sd)) := by
  constructor
  · intro h paths c' hrun path
    have hpaths := lookupPaths_eq paths (mounted_ok sd)
    cases hl : lookupPaths sd (mounted sd) paths with
    | none =>
        rw [hl] at hpaths
        rw [hpaths] at hrun
        cases hrun
    | some cache =>
        rw [hl] at hpaths
        rw [hpaths.2] at hrun
        cases hrun
        rw [← lookupPath_snd hpaths.1]
        exact h paths cache hl path
  · intro h history cache hl path
    have hpaths := lookupPaths_eq history (mounted_ok sd)
    rw [hl] at hpaths
    rw [lookupPath_snd hpaths.1]
    exact h history (nodes cache) hpaths.2 path

/-! ## When that is so -/

/-- The tables that paths lead to, each with the sum of `addr_first` over the bridges
    on the path. -/
inductive Table (sd : SdbfsDev w) : (base table : BitVec w) → Prop where
  | root : Table sd 0 sd.entrypoint
  | bridge {base table inum : BitVec w} {name : DName} {rec : Record}
      (ht : Table sd base table)
      (hname : entryInum (readWholeDir sd table) table name.chars = some inum)
      (hrec : readRecord sd (SDBFS_OFFSET inum) = some rec) (hb : IsBridge rec) :
      Table sd (base + (addrFirst rec).setWidth w) (base + (sdbChild rec).setWidth w)

/-- A path leads to a record with an inode number, below bridges whose `addr_first`
    sum up to a base. -/
def Leads (sd : SdbfsDev w) (inum base : BitVec w) : Prop :=
  ∃ table, ∃ name : DName, Table sd base table ∧
    entryInum (readWholeDir sd table) table name.chars = some inum

/-- The records that have a base address. -/
def IsPlaced (rec : Record) : Prop :=
  recordType rec = sdbTypeInterconnect ∨ recordType rec = sdbTypeDevice ∨
    recordType rec = sdbTypeBridge

/-- No record that has a base is reached below different bases, and what is reached
    under the number of the root is the root. -/
structure OneBase (sd : SdbfsDev w) : Prop where
  bases : ∀ inum base base' rec, Leads sd inum base → Leads sd inum base' →
    readRecord sd (SDBFS_OFFSET inum) = some rec → IsPlaced rec → base = base'
  root : ∀ base, Leads sd (SDBFS_ROOT w) base →
    newNode sd base (SDBFS_ROOT w) = some (rootNode sd)

section bases

variable {sd : SdbfsDev w}

/-- The directories of the graph are the tables. -/
theorem reach_table {node : Node w} (h : Reach (imageGraph sd) (rootNode sd) node)
    {base table : BitVec w} (hkind : node.kind = .directory base table) : Table sd base table := by
  induction h generalizing base table with
  | root =>
      cases hkind
      exact Table.root
  | @made v u name inum _ hfind hmake ih =>
      cases hv : v.kind with
      | file b => simp only [imageGraph, hv] at hfind; cases hfind
      | other => simp only [imageGraph, hv] at hfind; cases hfind
      | directory b t =>
          simp only [imageGraph, hv] at hfind hmake
          obtain ⟨rec, hrec, rfl⟩ := Option.map_eq_some_iff.mp hmake
          rw [kindOf] at hkind
          split at hkind
          · cases hkind
          · split at hkind
            · next hb =>
              cases hkind
              exact Table.bridge (ih hv) hfind hrec hb
            · cases hkind

/-- Every table is the one of a directory that is reached. -/
theorem table_reach {base table : BitVec w} (h : Table sd base table) :
    ∃ node, Reach (imageGraph sd) (rootNode sd) node ∧ node.kind = .directory base table := by
  induction h with
  | root => exact ⟨rootNode sd, Reach.root, rfl⟩
  | @bridge b t inum name rec _ hname hrec hb ih =>
      obtain ⟨v, hv, hkind⟩ := ih
      have hkindOf : kindOf b rec = .directory (b + (addrFirst rec).setWidth w)
          (b + (sdbChild rec).setWidth w) := by
        have hb' : recordType rec = sdbTypeBridge := hb
        rw [kindOf, if_neg, if_pos hb']
        rintro (h | h)
        · exact absurd (hb'.symm.trans h) (by decide)
        · exact absurd (hb'.symm.trans h) (by decide)
      refine ⟨⟨rec, kindOf b rec⟩, Reach.made (a := name) (k := inum) hv ?_ ?_, hkindOf⟩
      · simp only [imageGraph, hkind]
        exact hname
      · simp only [imageGraph, hkind, newNode, hrec]
        rfl

/-- What is below the root, in terms of the tables. -/
theorem below_iff {inum : BitVec w} {node : Node w} :
    Below (imageGraph sd) (rootNode sd) inum node ↔
      Reach (imageGraph sd) (rootNode sd) node ∧ ∃ base table, ∃ name : DName,
        node.kind = .directory base table ∧
          entryInum (readWholeDir sd table) table name.chars = some inum := by
  refine and_congr Iff.rfl ?_
  constructor
  · rintro ⟨name, hfind⟩
    cases hkind : node.kind with
    | file b => simp only [imageGraph, hkind] at hfind; cases hfind
    | other => simp only [imageGraph, hkind] at hfind; cases hfind
    | directory base table =>
        simp only [imageGraph, hkind] at hfind
        exact ⟨base, table, name, rfl, hfind⟩
  · rintro ⟨base, table, name, hkind, hfind⟩
    refine ⟨name, ?_⟩
    simp only [imageGraph, hkind]
    exact hfind

/-- Making an inode depends on the base alone, and only for a record that has one. -/
theorem newNode_eq_iff {inum base base' : BitVec w} :
    newNode sd base inum = newNode sd base' inum ↔
      ∀ rec, readRecord sd (SDBFS_OFFSET inum) = some rec → IsPlaced rec → base = base' := by
  rw [newNode, newNode]
  cases hrec : readRecord sd (SDBFS_OFFSET inum) with
  | none =>
      constructor
      · intro _ rec h
        cases h
      · intro _
        rfl
  | some rec =>
      simp only [Option.map_some, Option.some.injEq, Node.mk.injEq, true_and]
      constructor
      · intro h rec' heq hp
        subst heq
        rw [kindOf, kindOf] at h
        rcases hp with ht | ht | ht
        · rw [if_pos (Or.inl ht), if_pos (Or.inl ht)] at h
          injection h with h
          exact (BitVec.add_left_inj _).mp h
        · rw [if_pos (Or.inr ht), if_pos (Or.inr ht)] at h
          injection h with h
          exact (BitVec.add_left_inj _).mp h
        · have hne : ¬ (recordType rec = sdbTypeInterconnect ∨ recordType rec = sdbTypeDevice) := by
            rw [ht]
            decide
          rw [if_neg hne, if_neg hne, if_pos ht, if_pos ht] at h
          injection h with h
          exact (BitVec.add_left_inj _).mp h
      · intro h
        by_cases hp : IsPlaced rec
        · rw [h rec rfl hp]
        · have hne : ¬ (recordType rec = sdbTypeInterconnect ∨ recordType rec = sdbTypeDevice) :=
            fun h => hp (h.elim Or.inl fun h => Or.inr (Or.inl h))
          have hnb : ¬ recordType rec = sdbTypeBridge := fun h => hp (Or.inr (Or.inr h))
          rw [kindOf, kindOf, if_neg hne, if_neg hne, if_neg hnb, if_neg hnb]

/-- Only the root is in the cache then. -/
theorem nodes_mounted (sd : SdbfsDev w) {inum : BitVec w} {node : Node w}
    (h : nodes (mounted sd) inum = some node) : inum = SDBFS_ROOT w ∧ node = rootNode sd := by
  by_cases hroot : inum = SDBFS_ROOT w
  · subst hroot
    rw [nodes, mounted, Function.update_self] at h
    cases h
    exact ⟨rfl, rfl⟩
  · rw [nodes, mounted, Function.update_of_ne hroot] at h
    cases h

/-- Every inode number is determined exactly if no record has two bases. -/
theorem determined_iff : Determined (imageGraph sd) (rootNode sd) (nodes (mounted sd)) ↔
    OneBase sd := by
  have hmake {node : Node w} {base table : BitVec w} (h : node.kind = .directory base table)
      (inum : BitVec w) : (imageGraph sd).make node inum = newNode sd base inum := by
    simp only [imageGraph, h]
  constructor
  · intro h
    refine ⟨?_, ?_⟩
    · rintro inum base base' rec ⟨table, name, ht, hname⟩ ⟨table', name', ht', hname'⟩
      obtain ⟨v, hv, hkind⟩ := table_reach ht
      obtain ⟨v', hv', hkind'⟩ := table_reach ht'
      have heq := h.made inum v v' (below_iff.mpr ⟨hv, base, table, name, hkind, hname⟩)
        (below_iff.mpr ⟨hv', base', table', name', hkind', hname'⟩)
      rw [hmake hkind, hmake hkind'] at heq
      exact newNode_eq_iff.mp heq rec
    · rintro base ⟨table, name, ht, hname⟩
      obtain ⟨v, hv, hkind⟩ := table_reach ht
      have hroot : nodes (mounted sd) (SDBFS_ROOT w) = some (rootNode sd) := by
        rw [nodes, mounted, Function.update_self]
        rfl
      rw [← hmake hkind]
      exact h.kept _ v _ (below_iff.mpr ⟨hv, base, table, name, hkind, hname⟩) hroot
  · intro h
    refine ⟨?_, ?_⟩
    · intro inum v v' hk hk'
      obtain ⟨hv, base, table, name, hkind, hname⟩ := below_iff.mp hk
      obtain ⟨hv', base', table', name', hkind', hname'⟩ := below_iff.mp hk'
      rw [hmake hkind, hmake hkind']
      exact newNode_eq_iff.mpr fun rec => h.bases inum base base' rec
        ⟨table, name, reach_table hv hkind, hname⟩
        ⟨table', name', reach_table hv' hkind', hname'⟩
    · intro inum v u hk hu
      obtain ⟨hv, base, table, name, hkind, hname⟩ := below_iff.mp hk
      obtain ⟨rfl, rfl⟩ := nodes_mounted sd hu
      rw [hmake hkind]
      exact h.root base ⟨table, name, reach_table hv hkind, hname⟩

end bases

/-- **The order of the lookups does not matter exactly if every record has one base**:
    whatever was looked up before, every path leads to the inode that it leads to in
    the image, if and only if no two paths reach a record below different bases. -/
theorem inode_of_path (sd : SdbfsDev w) : OrderIndependent sd ↔ OneBase sd :=
  (orderIndependent_iff sd).trans (transparent_iff.trans determined_iff)

/-- Behind `a`, the file is at 0x110, and it is still there when it is looked up
    behind `b`. -/
theorem inode_not_of_path : ¬ OrderIndependent (bytesDev sharedBytes) := by
  intro h
  have hstale : ((lookupPaths (bytesDev sharedBytes) (mounted (bytesDev sharedBytes))
      [pathAF]).bind fun cache =>
        (lookupPath (bytesDev sharedBytes) cache pathBF).map fun r =>
          r.2.map Node.baseData) = some (some (some 0x110)) := by decide +kernel
  have hfresh : (resolve (bytesDev sharedBytes) pathBF).map (Option.map Node.baseData) =
      some (some (some 0x210)) := by decide +kernel
  obtain ⟨cache, hcache, hlook⟩ := Option.bind_eq_some_iff.mp hstale
  rw [← h _ cache hcache, Option.map_map] at hfresh
  have heq : some (some (some 0x110#32)) = some (some (some 0x210#32)) := hlook.symm.trans hfresh
  exact absurd heq (by decide)

end SdbfsInodeCache
