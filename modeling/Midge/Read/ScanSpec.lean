import Midge.Read.ScanMerge

/-!
# What a scan yields

The sources that a scan opens tell of all the keys of its range: a file that is left
out holds none of them. So the rows of a scan are the keys of the range that a point
read finds, with the same values (`ReadSnapshot.scan_drains`).

A point read stops at the first group of sources that decides the key, and a scan
merges all of them. They agree on a snapshot whose sources are in level order
(`ReadSnapshot.LevelOrdered`), as those of the engine are; on one that is not they
may differ (`scan_passes_stale_memtable`).
-/

namespace Midge

open List SstReadView SnapshotScan ReadSnapshot

/-! ## Files -/

/-- The entries of several cursors, when each lists the newest states of its own. -/
theorem Lists.biUnion {ι : Type*} {reverse : Bool} {I : Set ι} {entriesOf : ι → List StateEntry}
    {S : ι → Key → Set KeyState} {entries : List StateEntry}
    (h : ∀ i ∈ I, Lists reverse (entriesOf i) (S i))
    (hentries : Lists reverse entries fun k => {state | ∃ i ∈ I, (k, state) ∈ entriesOf i}) :
    Lists reverse entries fun k => {state | ∃ i ∈ I, state ∈ S i k} := by
  have hnewest : ∀ k, ∀ i ∈ I, ∃ o, IsNewest age (S i k) o ∧
      ∀ state, (k, state) ∈ entriesOf i ↔ o = some state := by
    intro k i hi
    by_cases hk : (S i k).Nonempty
    · obtain ⟨state, hstate⟩ := (h i hi).complete k hk
      refine ⟨some state, (h i hi).newest k state hstate, fun state' => ⟨fun h' => ?_, ?_⟩⟩
      · rw [(h i hi).unique hstate h']
      · rintro ⟨⟩
        exact hstate
    · refine ⟨none, Set.not_nonempty_iff_eq_empty.1 hk, fun state => ⟨fun h' => ?_, by simp⟩⟩
      exact absurd ⟨state, ((h i hi).newest k state h').mem⟩ hk
  refine ⟨hentries.sorted, fun k state hstate => ?_, fun k hk => ?_⟩
  · choose! newest hnewest hiff using hnewest k
    refine IsNewest.biUnion hnewest ?_
    have hset : {a | ∃ i ∈ I, newest i = some a} = {a | ∃ i ∈ I, (k, a) ∈ entriesOf i} := by
      ext a
      exact exists_congr fun i => and_congr_right fun hi => (hiff i hi a).symm
    rw [hset]
    exact hentries.newest k state hstate
  · obtain ⟨state, i, hi, hstate⟩ := hk
    obtain ⟨state', hstate'⟩ := (h i hi).complete k ⟨state, hstate⟩
    exact hentries.complete k ⟨state', i, hi, hstate'⟩

/-- The keys that an event is about. -/
def LevelEvent.Tells : LevelEvent → Key → Prop
  | .opened ts, k => ∃ t ∈ ts, t.Covers k
  | .entry (.ok e), k => e.1 = k
  | .entry (.error _), _ => False

theorem follows_of_tells {reverse : Bool} {x y : LevelEvent}
    (h : ∀ k, x.Tells k → ∀ k', y.Tells k' → ¬ Ahead reverse k' k) : Follows reverse x y := by
  obtain ts | error | e := x
  · trivial
  · trivial
  · obtain ts | error | e' := y
    · exact fun t ht k hk => h e.1 rfl k ⟨t, ht, hk⟩
    · trivial
    · exact h e.1 rfl e'.1 rfl

variable {file : FileMeta}

namespace ReadSnapshot

variable {s : ReadSnapshot} {range : ScanRange} {files : List FileMeta}

/-- The range tombstones of a source that may cover keys of the scan. -/
def scanTombstones (s : ReadSnapshot) (range : ScanRange) : ReadSource → Set RangeTombstone
  | .memtable m => {t | t ∈ (m.rangeTombstonesAt range.sequence).filter
      range.rangeTombstoneOverlapsQuery}
  | .sst file => {t | ∃ d, s.sstReader file = .ok d ∧ t ∈ d.scanTombstones range}

/-- The cursor of a file that can be read. -/
theorem Sound.lists_file (hs : s.Sound) (hfile : file ∈ s.sstView.files) (range : ScanRange) :
    ∃ d entries, s.sstReader file = .ok d ∧ d.rawStateScan range = entries.map .ok ∧
      Lists range.reverse entries
        (range.within fun k q => s.sourceStates k q (.sst file)) := by
  obtain ⟨d, hd, hsorted⟩ := hs.opens file hfile
  have hstates : ∀ k q, s.sourceStates k q (.sst file) = d.statesAt k q := by
    intro k q
    ext state
    simp [sourceStates, hd]
  have hsource : .sst file ∈ s.sources := by simp [sources, hfile]
  obtain ⟨entries, hentries, hlists⟩ := d.lists_rawStateScan hsorted range fun k => by
    rw [← hstates]
    refine (hs.injOn k range.sequence).mono ?_
    exact fun state h => ⟨_, hsource, h⟩
  exact ⟨d, entries, hd, hentries, hlists.congr fun k => by simp only [ScanRange.within, hstates]⟩

/-- What a cursor comes across in a file is about keys that the file holds. -/
theorem Sound.holds_of_tells {c : Bool} {event : LevelEvent} {k : Key} (hs : s.Sound)
    (hfile : file ∈ s.sstView.files) (h : event ∈ fileEvents s range c file)
    (hk : event.Tells k) : ∃ d, s.sstReader file = .ok d ∧ d.Holds k := by
  obtain ⟨d, entries, hd, hscan, hlists⟩ := hs.lists_file hfile range
  refine ⟨d, hd, ?_⟩
  simp only [fileEvents, hd] at h
  rcases mem_cons.1 h with rfl | h
  · obtain ⟨t, ht, hcovers⟩ := hk
    split_ifs at ht
    · exact .inr ⟨t, (mem_filter.1 ht).1, hcovers⟩
    · simp at ht
  · obtain ⟨result, hresult, rfl⟩ := mem_map.1 h
    rw [hscan] at hresult
    obtain ⟨e, he, rfl⟩ := mem_map.1 hresult
    obtain ⟨-, d', hd', v, hv, hvk, -⟩ := (hlists.newest e.1 e.2 he).mem
    obtain rfl : d = d' := Except.ok.inj (hd.symm.trans hd')
    exact .inl ⟨v, hv, hvk.trans hk⟩

/-- The bounds of the files are right. -/
abbrev BoundsKnown (s : ReadSnapshot) : Prop :=
  ∀ f ∈ s.sstView.files, ∀ d, s.sstReader f = .ok d → Described f d

/-- What a cursor comes across in files that follow one another. -/
theorem follows_of_bounds {c : Bool} {f g : FileMeta} {a b a' b' : Key} (hs : s.Sound)
    (hdescribed : s.BoundsKnown) (hf : f ∈ s.sstView.files) (hg : g ∈ s.sstView.files)
    (hfb : GrandparentOverlap.completeBounds f = some (a, b))
    (hgb : GrandparentOverlap.completeBounds g = some (a', b')) (hle : b ≤ a') :
    ∀ x ∈ fileEvents s range c f, ∀ y ∈ fileEvents s range c g,
      Follows false x y ∧ Follows true y x := by
  intro x hx y hy
  have hbetween : ∀ k, x.Tells k → ∀ k', y.Tells k' → ¬ k' < k := by
    intro k hk k' hk'
    obtain ⟨d, hd, hholds⟩ := hs.holds_of_tells hf hx hk
    obtain ⟨d', hd', hholds'⟩ := hs.holds_of_tells hg hy hk'
    exact not_lt.2 (((hdescribed f hf d hd).of_holds hfb hholds).2.trans
      (hle.trans ((hdescribed g hg d' hd').of_holds hgb hholds').1))
  exact ⟨follows_of_tells hbetween, follows_of_tells fun k hk k' hk' => hbetween k' hk' k hk⟩

/-- The cursor over files that follow one another in the direction of the scan. -/
theorem run_ready {c : Bool} (hs : s.Sound) (hmem : ∀ f ∈ files, f ∈ s.sstView.files)
    (hfollows : (range.directed files).Pairwise fun f g =>
      ∀ x ∈ fileEvents s range c f, ∀ y ∈ fileEvents s range c g, Follows range.reverse x y) :
    ∃ entries, Ready range.reverse
        (SnapshotStateIterator.sstLevel (.new s files range c)).next.1
        (SnapshotStateIterator.sstLevel (.new s files range c)).next.2 entries
        {t | c ∧ ∃ f ∈ files, t ∈ s.scanTombstones range (.sst f)} ∧
      Lists range.reverse entries fun k => {state | ∃ f ∈ {f | f ∈ files},
        state ∈ range.within (fun k q => s.sourceStates k q (.sst f)) k} := by
  choose! d entriesOf hopen hscan hlists using fun f (hf : f ∈ files) =>
    hs.lists_file (hmem f hf) range
  have hevents : ∀ f ∈ files, fileEvents s range c f =
      .opened (if c then (d f).scanTombstones range else []) ::
        (entriesOf f).map fun e => .entry (.ok e) := by
    intro f hf
    simp only [fileEvents, hopen f hf, hscan f hf, map_map]
    rfl
  have hahead : (SstLevelStateIterator.new s files range c).ahead =
      (range.directed files).flatMap (fileEvents s range c) := rfl
  have hstates : ∀ k, entryStates (SstLevelStateIterator.new s files range c).ahead k =
      {state | ∃ f ∈ {f | f ∈ files}, (k, state) ∈ entriesOf f} := by
    intro k
    ext state
    rw [hahead]
    simp only [entryStates, Set.mem_ofPred_eq, mem_flatMap, mem_directed]
    refine exists_congr fun f => and_congr_right fun hf => ?_
    rw [hevents f hf]
    simp
  have hfound : ∀ t, t ∈ foundTombstones (SstLevelStateIterator.new s files range c).ahead ↔
      c ∧ ∃ f ∈ files, t ∈ s.scanTombstones range (.sst f) := by
    intro t
    have hset : ∀ f ∈ files, (t ∈ s.scanTombstones range (.sst f) ↔
        t ∈ (d f).scanTombstones range) := by
      intro f hf
      simp [scanTombstones, hopen f hf]
    rw [hahead, mem_foundTombstones]
    simp only [mem_flatMap, mem_directed]
    constructor
    · rintro ⟨ts, ⟨f, hf, hts⟩, ht⟩
      rw [hevents f hf] at hts
      simp only [mem_cons, LevelEvent.opened.injEq, mem_map, reduceCtorEq, and_false,
        exists_false, or_false] at hts
      rw [hts] at ht
      split_ifs at ht with hc
      · exact ⟨hc, f, hf, (hset f hf).2 ht⟩
      · simp at ht
    · rintro ⟨hc, f, hf, ht⟩
      refine ⟨_, ⟨f, hf, ?_⟩, (hset f hf).1 ht⟩
      rw [hevents f hf, hc]
      exact mem_cons_self
  have horderly : Orderly range.reverse (SstLevelStateIterator.new s files range c).ahead := by
    refine ⟨?_, ?_, ?_⟩
    · rw [hahead]
      refine pairwise_flatMap.2 ⟨fun f hf => ?_, hfollows⟩
      rw [hevents f (mem_directed.1 hf)]
      refine pairwise_cons.2 ⟨fun _ _ => trivial, pairwise_map.2 ?_⟩
      exact (hlists f (mem_directed.1 hf)).sorted.imp fun h => h.not_ahead
    · intro result hresult
      rw [hahead, mem_flatMap] at hresult
      obtain ⟨f, hf, hresult⟩ := hresult
      rw [hevents f (mem_directed.1 hf)] at hresult
      simp only [mem_cons, reduceCtorEq, mem_map, LevelEvent.entry.injEq,
        false_or] at hresult
      obtain ⟨e, he, rfl⟩ := hresult
      refine ⟨e, rfl, fun habsent => ?_⟩
      have := ((hlists f (mem_directed.1 hf)).newest e.1 e.2 he).mem.2
      rw [habsent] at this
      exact absent_notMem_sourceStates this
    · intro k
      refine (hs.injOn k range.sequence).mono ?_
      rw [hstates]
      rintro state ⟨f, hf, hstate⟩
      exact ⟨.sst f, by simp [sources, hmem f hf], ((hlists f hf).newest k state hstate).mem.2⟩
  obtain ⟨entries, hready, hentries⟩ := level_ready horderly rfl
  refine ⟨entries, ?_, Lists.biUnion (fun f hf => hlists f hf) (hentries.congr hstates)⟩
  rwa [show {t | t ∈ foundTombstones (SstLevelStateIterator.new s files range c).ahead} = _ from
    Set.ext hfound] at hready

end ReadSnapshot

/-! ## Opening the sources -/

/-- The sources of the scan opened so far tell of the given sources of the snapshot:
    of their states of the keys of the range, and of their range tombstones. -/
structure SnapshotScan.Opened (s : ReadSnapshot) (range : ScanRange) (scan : SnapshotScan)
    (told : Set ReadSource) : Prop where
  snapshot : scan.snapshot = s
  range_eq : scan.range = range
  active : scan.lifecycle = .active
  initialized : scan.initialized = true
  direction : scan.rangeCover.reverse = range.reverse
  position : scan.rangeCover.position = none
  shares : ∃ (shares : List Share) (states : List (Key → Set KeyState))
      (ranges : Set RangeTombstone),
    List.Forall₂ (Feeds range.reverse) scan.sources shares ∧
    List.Forall₂ (fun share S => Lists range.reverse share.1 S) shares states ∧
    scan.rangeCover.Stands ranges ∧
    allTombstones ranges shares = {t | ∃ source ∈ told, t ∈ s.scanTombstones range source} ∧
    ∀ k, {state | ∃ S ∈ states, state ∈ S k} =
      {state | ∃ source ∈ told, state ∈ range.within (fun k q => s.sourceStates k q source) k}

namespace SnapshotScan

variable {s : ReadSnapshot} {range : ScanRange} {scan : SnapshotScan} {told : Set ReadSource}

/-- Adding a source, and some range tombstones at once. -/
theorem Opened.push (h : Opened s range scan told) (told' : Set ReadSource)
    {iterator : SnapshotStateIterator}
    {entries : List StateEntry} {later : Set RangeTombstone} {S : Key → Set KeyState}
    (tombstones : List RangeTombstone)
    (hready : Ready range.reverse iterator.next.1 iterator.next.2 entries later)
    (hlists : Lists range.reverse entries S)
    (hS : ∀ k, S k = {state | ∃ source ∈ told',
      state ∈ range.within (fun k q => s.sourceStates k q source) k})
    (htombstones : {t | t ∈ tombstones} ∪ later =
      {t | ∃ source ∈ told', t ∈ s.scanTombstones range source}) :
    Opened s range
      { scan.push iterator with rangeCover := scan.rangeCover.insertAll tombstones }
      (told ∪ told') := by
  obtain ⟨shares, states, ranges, hfeeds, hstates, hstands, hall, hsets⟩ := h.shares
  obtain ⟨hstands', hreverse, hposition⟩ := hstands.insertAll tombstones
  refine ⟨h.snapshot, h.range_eq, h.active, h.initialized, hreverse.trans h.direction,
    hposition.trans h.position, shares ++ [(entries, later)], states ++ [S],
    {t | t ∈ tombstones} ∪ ranges, rel_append hfeeds (.cons hready .nil),
    rel_append hstates (.cons hlists .nil), hstands', ?_, fun k => ?_⟩
  · have hunion : allTombstones ({t | t ∈ tombstones} ∪ ranges) (shares ++ [(entries, later)]) =
        allTombstones ranges shares ∪ ({t | t ∈ tombstones} ∪ later) := by
      ext t
      simp only [allTombstones, Set.mem_union, Set.mem_ofPred_eq, mem_append,
        mem_singleton, or_and_right, exists_or, exists_eq_left]
      grind
    rw [hunion, hall, htombstones]
    ext t
    simp only [Set.mem_union, Set.mem_ofPred_eq, or_and_right, exists_or]
  · have hk := Set.ext_iff.1 (hsets k)
    ext state
    have hstate := hk state
    simp only [Set.mem_ofPred_eq] at hstate
    simp only [Set.mem_ofPred_eq, mem_append, mem_singleton, or_and_right, exists_or,
      exists_eq_left, Set.mem_union, hstate, hS]

theorem Opened.addMemtable (h : Opened s range scan told) (m : Memtable) :
    Opened s range (scan.addMemtable m) (told ∪ {.memtable m}) := by
  have hpush := h.push {.memtable m} ((m.rangeTombstonesAt range.sequence).filter
      range.rangeTombstoneOverlapsQuery) (ready_memory (m.rangeStateCursor range))
    (m.lists_rangeStateCursor range) (fun k => by
      ext state
      simp only [Set.mem_singleton_iff, exists_eq_left, Set.mem_ofPred_eq]
      rfl) (by
      rw [Set.union_empty]
      ext t
      simp only [Set.mem_singleton_iff, exists_eq_left, Set.mem_ofPred_eq]
      rfl)
  rw [← h.range_eq] at hpush ⊢
  exact hpush

theorem opened_start (s : ReadSnapshot) (range : ScanRange) :
    Opened s range { s.scan range with initialized := true } ∅ := by
  refine ⟨rfl, rfl, rfl, rfl, rfl, rfl, [], [], ∅, .nil, .nil, RangeCoverSweep.stands_new _, ?_,
    fun k => ?_⟩
  · simp [allTombstones]
  · simp

theorem Opened.addMemtables (h : Opened s range scan told) (memtables : List Memtable) :
    Opened s range (memtables.foldl SnapshotScan.addMemtable scan)
      (told ∪ {source | ∃ m ∈ memtables, source = .memtable m}) := by
  induction memtables generalizing scan told with
  | nil => simpa using h
  | cons m memtables ih =>
    have hset : told ∪ {source | ∃ m' ∈ m :: memtables, source = .memtable m'} =
        told ∪ {.memtable m} ∪ {source | ∃ m' ∈ memtables, source = .memtable m'} := by
      ext source
      simp only [Set.mem_union, Set.mem_ofPred_eq, mem_cons, or_and_right, exists_or,
        exists_eq_left, Set.mem_singleton_iff, or_assoc]
    rw [hset]
    exact ih (h.addMemtable m)

variable (hs : s.Sound)
include hs

/-- Opening a file whose range tombstones are collected at once. -/
theorem Opened.appendReaderTombstones (h : Opened s range scan told) {file : FileMeta}
    (hfile : file ∈ s.sstView.files) :
    ∃ d entries, scan.appendReaderTombstones file = .ok (d,
        { scan with rangeCover := scan.rangeCover.insertAll (d.scanTombstones range) }) ∧
      s.sstReader file = .ok d ∧ d.rawStateScan range = entries.map .ok ∧
      Lists range.reverse entries (range.within fun k q => s.sourceStates k q (.sst file)) ∧
      {t | t ∈ d.scanTombstones range} = s.scanTombstones range (.sst file) := by
  obtain ⟨d, entries, hd, hscan, hlists⟩ := hs.lists_file hfile range
  refine ⟨d, entries, ?_, hd, hscan, hlists, ?_⟩
  · rw [SnapshotScan.appendReaderTombstones, h.snapshot, hd, h.range_eq]
    rfl
  · ext t
    simp [scanTombstones, hd]

theorem Opened.addFallback (h : Opened s range scan told) (hfile : file ∈ s.sstView.files) :
    ∃ scan', scan.addFallback file = .ok scan' ∧ Opened s range scan' (told ∪ {.sst file}) := by
  obtain ⟨d, -, happend, -, -, -, htombstones⟩ := h.appendReaderTombstones hs hfile
  obtain ⟨entries, hready, hlists⟩ := @ReadSnapshot.run_ready s range [file] false
    hs (by simpa using hfile)
    (by rw [ScanRange.directed]; split_ifs <;> exact pairwise_singleton _ _)
  refine ⟨_, ?_, h.push {.sst file} (d.scanTombstones range) hready hlists ?_ ?_⟩
  · obtain rfl := h.snapshot
    obtain rfl := h.range_eq
    rw [addFallback, happend]
    rfl
  · intro k
    ext state
    simp
  · rw [htombstones]
    ext t
    simp

omit hs in
/-- Adding one after another. -/
theorem Opened.foldlM {α : Type} {add : SnapshotScan → α → MidgeResult SnapshotScan}
    (tells : α → Set ReadSource) {l : List α}
    (hadd : ∀ a ∈ l, ∀ scan told, Opened s range scan told →
      ∃ scan', add scan a = .ok scan' ∧ Opened s range scan' (told ∪ tells a))
    (h : Opened s range scan told) :
    ∃ scan', l.foldlM add scan = .ok scan' ∧
      Opened s range scan' (told ∪ {source | ∃ a ∈ l, source ∈ tells a}) := by
  induction l generalizing scan told with
  | nil => exact ⟨scan, rfl, by simpa using h⟩
  | cons a l ih =>
    obtain ⟨scan₁, hfirst, h₁⟩ := hadd a mem_cons_self scan told h
    obtain ⟨scan', hrest, h'⟩ := ih (fun b hb => hadd b (mem_cons_of_mem _ hb)) h₁
    refine ⟨scan', ?_, ?_⟩
    · rw [foldlM_cons, hfirst]
      exact hrest
    · have hset : told ∪ {source | ∃ b ∈ a :: l, source ∈ tells b} =
          told ∪ tells a ∪ {source | ∃ b ∈ l, source ∈ tells b} := by
        ext source
        simp only [Set.mem_union, Set.mem_ofPred_eq, exists_mem_cons_iff, or_assoc]
      rwa [hset]

variable (hdescribed : s.BoundsKnown)
include hdescribed

/-- Adding files that follow one another: their range tombstones are collected as the
    cursor gets to them. -/
theorem Opened.pushRun (h : Opened s range scan told) {files : List FileMeta}
    (hfiles : ∀ f ∈ files, f ∈ s.sstView.files)
    (hcomplete : ∀ f ∈ files, hasCompleteBounds f) (hchained : Chained files) :
    Opened s range (scan.push (.sstLevel (.new s files range true)))
      (told ∪ {source | ∃ f ∈ files, source = .sst f}) := by
  have hfollows : files.Pairwise fun f g => ∀ x ∈ fileEvents s range true f,
      ∀ y ∈ fileEvents s range true g, Follows false x y ∧ Follows true y x := by
    refine List.Pairwise.imp_of_mem ?_ hchained
    intro f g hf hg hle
    obtain ⟨a, b, hfb⟩ := hasCompleteBounds_iff.1 (hcomplete f hf)
    obtain ⟨a', b', hgb⟩ := hasCompleteBounds_iff.1 (hcomplete g hg)
    exact follows_of_bounds hs hdescribed (hfiles f hf) (hfiles g hg) hfb hgb
      (hle a b a' b' hfb hgb)
  have hdirected : (range.directed files).Pairwise fun f g => ∀ x ∈ fileEvents s range true f,
      ∀ y ∈ fileEvents s range true g, Follows range.reverse x y := by
    rw [ScanRange.directed]
    cases range.reverse
    · exact hfollows.imp fun h x hx y hy => (h x hx y hy).1
    · exact pairwise_reverse.2 (hfollows.imp fun h x hx y hy => (h y hy x hx).2)
  obtain ⟨entries, hready, hlists⟩ := run_ready hs hfiles hdirected
  refine h.push {source | ∃ f ∈ files, source = .sst f} [] hready hlists (fun k => ?_) ?_
  · ext state
    simp
  · ext t
    simp

theorem Opened.addLevelSource (h : Opened s range scan told) {candidates : LevelReadView}
    (hfiles : ∀ f ∈ candidates.ordered ++ candidates.fallback, f ∈ s.sstView.files)
    (hcomplete : ∀ f ∈ candidates.ordered, hasCompleteBounds f)
    (hchained : Chained candidates.ordered) :
    ∃ scan', scan.addLevelSource candidates = .ok scan' ∧ Opened s range scan'
      (told ∪ {source | ∃ f ∈ candidates.ordered ++ candidates.fallback, source = .sst f}) := by
  have hset : told ∪ {source | ∃ f ∈ candidates.ordered ++ candidates.fallback, source = .sst f} =
      told ∪ {source | ∃ f ∈ candidates.ordered, source = .sst f} ∪
        {source | ∃ f ∈ candidates.fallback, source = .sst f} := by
    ext source
    simp only [Set.mem_union, Set.mem_ofPred_eq, mem_append, or_and_right, exists_or, or_assoc]
  rw [hset, SnapshotScan.addLevelSource]
  refine Opened.foldlM (fun f => {.sst f}) (fun f hf scan told h =>
    h.addFallback hs (hfiles f (mem_append_right _ hf))) ?_
  split_ifs with hnil
  · simpa [hnil] using h
  · have hrun := h.pushRun hs hdescribed (fun f hf => hfiles f (mem_append_left _ hf)) hcomplete
      hchained
    rw [h.snapshot, h.range_eq]
    exact hrun

theorem Opened.addL0Source (h : Opened s range scan told) {files : List FileMeta}
    (hfiles : ∀ f ∈ files, f ∈ s.sstView.files)
    (hrun : files.length ≤ 1 ∨ ((∀ f ∈ files, hasCompleteBounds f) ∧ Chained files)) :
    ∃ scan', scan.addL0Source files = .ok scan' ∧ Opened s range scan'
      (told ∪ {source | ∃ f ∈ files, source = .sst f}) := by
  match files with
  | [] => exact ⟨scan, rfl, by simpa using h⟩
  | [file] =>
    obtain ⟨d, entries, happend, hd, hscan, hlists, htombstones⟩ :=
      h.appendReaderTombstones hs (hfiles file (by simp))
    refine ⟨_, ?_, h.push {source | ∃ f ∈ [file], source = .sst f} (d.scanTombstones range)
      (ready_sst entries) hlists (fun k => ?_) ?_⟩
    · obtain rfl := h.range_eq
      rw [← hscan, addL0Source, happend]
      rfl
    · ext state
      simp
    · rw [htombstones, Set.union_empty]
      ext t
      simp
  | f :: g :: files =>
    obtain ⟨hcomplete, hchained⟩ := hrun.resolve_left (by simp)
    have hadd := @Opened.addLevelSource _ _ _ _ hs hdescribed h ⟨f :: g :: files, []⟩
      (by simpa using hfiles) hcomplete hchained
    rwa [append_nil] at hadd

end SnapshotScan

/-! ## Which sources are opened -/

/-- The candidates of a range: parts of the runs of L0 and of the levels. -/
theorem mem_rangeCandidates {view : SstReadView} {start stop : Option Key} :
    (∀ run ∈ (view.rangeCandidates start stop).l0, ∃ run' ∈ view.l0Runs, run =
      if SstReadView.uncertainRun run' then run' else SstReadView.orderedRange start stop run') ∧
    ∀ level ∈ (view.rangeCandidates start stop).levels, ∃ level' ∈ view.levels,
      level = ⟨SstReadView.orderedRange start stop level'.2.ordered, level'.2.fallback⟩ := by
  constructor
  · intro run hrun
    obtain ⟨run', hrun', rfl⟩ := mem_map.1 (mem_filter.1 hrun).1
    exact ⟨run', hrun', rfl⟩
  · intro level hlevel
    obtain ⟨level', hlevel', rfl⟩ := mem_map.1 (mem_filter.1 hlevel).1
    exact ⟨level', hlevel', rfl⟩

variable {range : ScanRange} {source : ReadSource} {run : List FileMeta}

theorem ScanRange.contains_iff {k : Key} : range.contains k ↔
    (∀ start ∈ range.start, start ≤ k) ∧ ∀ stop ∈ range.stop, k < stop := by
  rw [contains]
  cases range.start <;> cases range.stop <;> simp

namespace ReadSnapshot

variable {s : ReadSnapshot} {files : List FileMeta}

/-- The sources of the snapshot that a scan opens. -/
def toldSources (s : ReadSnapshot) (range : ScanRange) : Set ReadSource :=
  {source | (∃ m ∈ s.memtable :: s.immutableMemtables, source = .memtable m) ∨
    (∃ run ∈ (s.sstView.rangeCandidates range.start range.stop).l0, ∃ f ∈ run, source = .sst f) ∨
    ∃ level ∈ (s.sstView.rangeCandidates range.start range.stop).levels,
      ∃ f ∈ level.ordered ++ level.fallback, source = .sst f}

section

variable (hc : s.Catalogues files)

include hc

theorem Catalogues.goodRun (hrun : run ∈ s.sstView.l0Runs) :
    GoodRun run ∧ ∀ f ∈ run, f ∈ s.sstView.l0 := by
  rw [hc.view] at hrun ⊢
  obtain ⟨hgood, hmem⟩ := buildL0Runs_spec (fromShared files).l0
  exact ⟨(hgood run hrun).goodRun, fun f hf => (hmem f).1 ⟨run, hrun, hf⟩⟩

theorem Catalogues.chained {level : ℕ × LevelReadView} (hlevel : level ∈ s.sstView.levels) :
    (∀ f ∈ level.2.ordered, hasCompleteBounds f) ∧ Chained level.2.ordered := by
  rw [hc.view] at hlevel
  obtain ⟨n, -, rfl⟩ := mem_map.1 hlevel
  exact ⟨fun f => complete_of_mem_ordered, chained_ordered⟩

theorem Catalogues.boundsKnown : s.BoundsKnown := by
  intro f hf
  rw [hc.view, mem_files_fromShared] at hf
  exact hc.described f hf

/-- The candidates of a run of L0. -/
theorem Catalogues.run_candidates (start stop : Option Key)
    (hrun : run ∈ (s.sstView.rangeCandidates start stop).l0) :
    (∀ f ∈ run, f ∈ s.sstView.files) ∧
      (run.length ≤ 1 ∨ ((∀ f ∈ run, hasCompleteBounds f) ∧ Chained run)) := by
  obtain ⟨run', hrun', rfl⟩ := mem_rangeCandidates.1 run hrun
  obtain ⟨hgood, hmem⟩ := hc.goodRun hrun'
  have hsub : (if uncertainRun run' then run'
      else orderedRange start stop run').Sublist run' := by
    split_ifs
    exacts [.refl _, orderedRange_sublist]
  refine ⟨fun f hf => mem_append_left _ (hmem f (hsub.mem hf)), ?_⟩
  rcases hgood with ⟨file, rfl, -⟩ | ⟨-, hcomplete, hchained⟩
  · exact .inl (hsub.length_le.trans (by simp))
  · exact .inr ⟨fun f hf => hcomplete f (hsub.mem hf), hchained.sublist hsub⟩

/-- The candidates of a level. -/
theorem Catalogues.level_candidates (start stop : Option Key) {level : LevelReadView}
    (hlevel : level ∈ (s.sstView.rangeCandidates start stop).levels) :
    (∀ f ∈ level.ordered ++ level.fallback, f ∈ s.sstView.files) ∧
      (∀ f ∈ level.ordered, hasCompleteBounds f) ∧ Chained level.ordered := by
  obtain ⟨level', hlevel', rfl⟩ := mem_rangeCandidates.2 level hlevel
  obtain ⟨hcomplete, hchained⟩ := hc.chained hlevel'
  have hsub := @orderedRange_sublist start stop level'.2.ordered
  refine ⟨fun f hf => ?_, fun f hf => hcomplete f (hsub.mem hf), hchained.sublist hsub⟩
  refine mem_append_right _ (mem_flatMap.2 ⟨level', hlevel', ?_⟩)
  exact (hsub.append (.refl _)).mem hf

end

/-- A scan opens its sources, if the SSTs can be read. -/
theorem opened_initializeSources (hs : s.Sound) (hc : s.Catalogues files) (range : ScanRange) :
    ∃ scan, (s.scan range).initializeSources = .ok scan ∧
      scan.Opened s range (s.toldSources range) := by
  have h₀ := (opened_start s range).addMemtables (s.memtable :: s.immutableMemtables)
  rw [Set.empty_union] at h₀
  have hinit : (s.scan range).initializeSources =
      ((s.memtable :: s.immutableMemtables).foldl addMemtable
        { s.scan range with initialized := true }).addSsts := rfl
  rw [hinit]
  generalize (s.memtable :: s.immutableMemtables).foldl addMemtable
    { s.scan range with initialized := true } = scan₀ at h₀
  obtain ⟨scan₁, hadd₁, h₁⟩ := h₀.foldlM (fun run => {source | ∃ f ∈ run, source = .sst f})
    fun run hrun scan told h => by
      obtain ⟨hfiles, hchain⟩ := hc.run_candidates range.start range.stop hrun
      exact h.addL0Source hs hc.boundsKnown hfiles hchain
  obtain ⟨scan₂, hadd₂, h₂⟩ := h₁.foldlM (fun level : LevelReadView =>
      {source | ∃ f ∈ level.ordered ++ level.fallback, source = .sst f})
    fun level hlevel scan told h => by
      obtain ⟨hfiles, hcomplete, hchained⟩ := hc.level_candidates range.start range.stop hlevel
      exact h.addLevelSource hs hc.boundsKnown hfiles hcomplete hchained
  have htold : s.toldSources range =
      {source | ∃ m ∈ s.memtable :: s.immutableMemtables, source = .memtable m} ∪
        {source | ∃ run ∈ (s.sstView.rangeCandidates range.start range.stop).l0,
          source ∈ {source | ∃ f ∈ run, source = .sst f}} ∪
        {source | ∃ level ∈ (s.sstView.rangeCandidates range.start range.stop).levels,
          source ∈ {source | ∃ f ∈ level.ordered ++ level.fallback, source = .sst f}} := by
    ext source
    exact or_assoc.symm
  rw [addSsts, h₀.snapshot, h₀.range_eq]
  split_ifs with hmemory
  · -- There are no SSTs.
    have hnil : s.sstView = .fromShared [] := by rw [hc.view, hc.memory hmemory]
    refine ⟨scan₀, rfl, ?_⟩
    rw [toldSources, hnil]
    convert h₀ using 1
    ext source
    simp [rangeCandidates, fromShared, buildL0Runs, l0RunsFrom,
      levelNumbers]
  · refine ⟨scan₂, ?_, htold ▸ h₂⟩
    change ((s.sstView.rangeCandidates range.start range.stop).l0.foldlM
      addL0Source scan₀ >>= fun scan =>
        (s.sstView.rangeCandidates range.start range.stop).levels.foldlM
          addLevelSource scan) = _
    rw [hadd₁]
    exact hadd₂

section

variable (hc : s.Catalogues files)

include hc

theorem mem_sources_of_told (h : source ∈ s.toldSources range) :
    source ∈ s.sources := by
  rw [sources, mem_append, mem_map, mem_map]
  rcases h with ⟨m, hm, rfl⟩ | ⟨run, hrun, f, hf, rfl⟩ | ⟨level, hlevel, f, hf, rfl⟩
  · exact .inl ⟨m, by simpa [memtables] using hm, rfl⟩
  · exact .inr ⟨f, (hc.run_candidates _ _ hrun).1 f hf, rfl⟩
  · exact .inr ⟨f, (hc.level_candidates _ _ hlevel).1 f hf, rfl⟩

/-- A file out of the range holds none of its keys. -/
theorem Catalogues.not_holds {f : FileMeta} (hf : f ∈ s.sstView.files)
    (hcomplete : hasCompleteBounds f) {d : SstContents} {k : Key}
    (hout : OutOfRange range.start range.stop f) (hk : range.contains k)
    (hd : s.sstReader f = .ok d) : ¬ d.Holds k := by
  intro hholds
  obtain ⟨lower, upper, hb⟩ := hasCompleteBounds_iff.1 hcomplete
  obtain ⟨-, hsmallest, hlargest, -⟩ := le_of_completeBounds hb
  obtain ⟨hlower, hupper⟩ := (hc.boundsKnown f hf d hd).of_holds hb hholds
  obtain ⟨hstarts, hstops⟩ := ScanRange.contains_iff.1 hk
  rcases hout with ⟨start, hstart, hlt⟩ | ⟨stop, hstop, hnot⟩
  · simp only [hlargest, Option.any_some, decide_eq_true_eq] at hlt
    exact absurd ((hstarts start hstart).trans hupper) hlt.not_ge
  · simp only [hsmallest, Option.any_some, decide_eq_true_eq] at hnot
    exact hnot (hlower.trans_lt (hstops stop hstop))

/-- A source that is left out is a file out of the range. -/
theorem told_or_outOfRange (range : ScanRange) (h : source ∈ s.sources) :
    source ∈ s.toldSources range ∨
      ∃ f ∈ s.sstView.files, source = .sst f ∧ hasCompleteBounds f ∧
        OutOfRange range.start range.stop f := by
  rw [sources, mem_append, mem_map, mem_map] at h
  rcases h with ⟨m, hm, rfl⟩ | ⟨f, hf, rfl⟩
  · exact .inl (.inl ⟨m, by simpa [memtables] using hm, rfl⟩)
  · have hfile := hf
    rw [hc.view, mem_files_fromShared] at hfile
    have hcandidates := mem_rangeCandidates_or range.start range.stop hfile
    rw [← hc.view] at hcandidates
    rcases hcandidates with ⟨run, hrun, hmem⟩ | ⟨level, hlevel, hmem⟩ | ⟨hcomplete, hout⟩
    · exact .inl (.inr (.inl ⟨run, hrun, f, hmem, rfl⟩))
    · exact .inl (.inr (.inr ⟨level, hlevel, f, hmem, rfl⟩))
    · exact .inr ⟨f, hf, rfl, hcomplete, hout⟩

/-- A source that is left out holds no key of the range. -/
theorem told_or_not_holds (range : ScanRange) (h : source ∈ s.sources) :
    source ∈ s.toldSources range ∨
      ∃ f, source = .sst f ∧ ∀ k, range.contains k → ∀ d, s.sstReader f = .ok d → ¬ d.Holds k := by
  refine (told_or_outOfRange hc range h).imp_right ?_
  rintro ⟨f, hf, rfl, hcomplete, hout⟩
  exact ⟨f, rfl, fun k hk d hd => hc.not_holds hf hcomplete hout hk hd⟩

/-- The sources opened tell of all the states of the keys of the range. -/
theorem told_states (range : ScanRange) (k : Key) :
    {state | ∃ source ∈ s.toldSources range,
      state ∈ range.within (fun k q => s.sourceStates k q source) k} =
    {state | range.contains k ∧ state ∈ s.statesAt k range.sequence} := by
  ext state
  constructor
  · rintro ⟨source, hsource, hk, hstate⟩
    exact ⟨hk, source, mem_sources_of_told hc hsource, hstate⟩
  · rintro ⟨hk, source, hsource, hstate⟩
    rcases told_or_not_holds hc range hsource with htold | ⟨f, rfl, hno⟩
    · exact ⟨source, htold, hk, hstate⟩
    · obtain ⟨d, hd, v, hv, hvk, -⟩ := hstate
      exact absurd (.inl ⟨v, hv, hvk⟩) (hno k hk d hd)

/-- The sources opened tell of all the range tombstones covering keys of the range. -/
theorem told_covers {k : Key} (hk : range.contains k) :
    coverSeqs {t | ∃ source ∈ s.toldSources range, t ∈ s.scanTombstones range source} k =
      s.coversAt k range.sequence := by
  have hoverlaps : ∀ t : RangeTombstone, t.Covers k → range.rangeTombstoneOverlapsQuery t := by
    intro t ht
    obtain ⟨hstarts, hstops⟩ := ScanRange.contains_iff.1 hk
    simp only [ScanRange.rangeTombstoneOverlapsQuery, Bool.not_eq_true', ← Bool.not_eq_true,
      Bool.or_eq_true, not_or, Option.any_eq_true, decide_eq_true_eq]
    constructor
    · rintro ⟨stop, hstop, hle⟩
      exact absurd (ht.1.trans_lt (hstops stop hstop)) hle.not_gt
    · rintro ⟨start, hstart, hle⟩
      exact absurd ((hstarts start hstart).trans_lt ht.2) hle.not_gt
  ext seq
  constructor
  · rintro ⟨t, ⟨source, hsource, ht⟩, hcovers, hseq⟩
    refine ⟨source, mem_sources_of_told hc hsource, ?_⟩
    cases source with
    | memtable m =>
      obtain ⟨ht, hvisible⟩ := mem_filter.1 (mem_filter.1 ht).1
      exact ⟨t, ht, hvisible, hcovers, hseq⟩
    | sst file =>
      obtain ⟨d, hd, ht⟩ := ht
      obtain ⟨ht, hvisible⟩ := mem_filter.1 ht
      rw [Bool.and_eq_true] at hvisible
      exact ⟨d, hd, t, ht, hvisible.1, hcovers, hseq⟩
  · rintro ⟨source, hsource, hin⟩
    cases source with
    | memtable m =>
      obtain ⟨t, ht, hvisible, hcovers, hseq⟩ := hin
      refine ⟨t, ⟨.memtable m, (told_or_not_holds hc range hsource).resolve_right ?_, ?_⟩, hcovers,
        hseq⟩
      · rintro ⟨f, hf, -⟩
        cases hf
      · exact mem_filter.2 ⟨mem_filter.2 ⟨ht, hvisible⟩, hoverlaps t hcovers⟩
    | sst file =>
      obtain ⟨d, hd, t, ht, hvisible, hcovers, hseq⟩ := hin
      refine ⟨t, ⟨.sst file, (told_or_not_holds hc range hsource).resolve_right ?_, d, hd, ?_⟩,
        hcovers, hseq⟩
      · rintro ⟨f, hf, hno⟩
        cases hf
        exact hno k hk d hd (.inr ⟨t, ht, hcovers⟩)
      · exact mem_filter.2 ⟨ht, by rw [hvisible, hoverlaps t hcovers]; rfl⟩

end

end ReadSnapshot

/-! ## The rows -/

/-- The newest of the entries is the newest of all that they have been chosen from. -/
theorem newest_statesIn {reverse : Bool} {shares : List Share}
    {states : List (Key → Set KeyState)} {k : Key} {o : Option KeyState}
    (hlists : List.Forall₂ (fun share S => Lists reverse share.1 S) shares states)
    (h : IsNewest age (statesIn shares k) o) :
    IsNewest age {state | ∃ S ∈ states, state ∈ S k} o := by
  have hentry : ∀ S ∈ states, ∀ state ∈ S k, ∃ state' ∈ statesIn shares k,
      age state ≤ age state' := by
    intro S hS state hstate
    obtain ⟨share, hshare, hl⟩ := forall₂_exists hlists.flip hS
    obtain ⟨state', hin⟩ := hl.complete k ⟨state, hstate⟩
    exact ⟨state', ⟨share, hshare, hin⟩, (hl.newest k state' hin).2 state hstate⟩
  cases o with
  | none =>
    refine Set.eq_empty_iff_forall_notMem.2 ?_
    rintro state ⟨S, hS, hstate⟩
    obtain ⟨state', hin, -⟩ := hentry S hS state hstate
    exact Set.eq_empty_iff_forall_notMem.1 h state' hin
  | some best =>
    obtain ⟨⟨share, hshare, hin⟩, hmax⟩ := h
    obtain ⟨S, hS, hl⟩ := forall₂_exists hlists hshare
    refine ⟨⟨S, hS, (hl.newest k best hin).mem⟩, ?_⟩
    rintro state ⟨S', hS', hstate⟩
    obtain ⟨state', hin', hle⟩ := hentry S' hS' state hstate
    exact hle.trans (hmax state' hin')

/-- There is a newest entry, as there are only finitely many. -/
theorem exists_newest_statesIn (shares : List Share) (k : Key) :
    ∃ o, IsNewest age (statesIn shares k) o := by
  have hlist : statesIn shares k =
      {state | state ∈ ((shares.flatMap Prod.fst).filter (·.1 = k)).map Prod.snd} := by
    ext state
    simp [statesIn]
  rw [hlist]
  exact ⟨_, .argmax _⟩

/-- The value that a read shows of a state. -/
def KeyState.shown (readTimeMillis : ℕ) : KeyState → Option Value
  | .value v _ expiration _ => if isExpiredAt expiration readTimeMillis then none else some v
  | _ => none

theorem PointReadWalk.resolve_eq_shown (w : PointReadWalk) (readTimeMillis : ℕ) :
    w.resolve readTimeMillis = w.keyState.shown readTimeMillis := by
  obtain ⟨_ | state, cover⟩ := w
  · cases cover <;> rfl
  · cases cover with
    | none => cases state <;> rfl
    | some c =>
      rw [resolve, keyState, Option.bind_some, Option.any_some]
      by_cases hle : (stateSequence state).getD 0 ≤ c
      · simp [hle, KeyState.shown]
      · simp only [hle, decide_false]
        cases state <;> rfl

namespace ReadSnapshot

variable {s : ReadSnapshot} {files : List FileMeta}

/-- What a point read finds, by the states and range tombstones of the key. -/
theorem getBytes_eq_some (hc : s.Catalogues files) (ho : s.LevelOrdered files) (hs : s.Sound)
    {k : Key} {q : ℕ} {v : Value} : s.getBytes k q = .ok (some v) ↔
      SnapshotScan.RowAt s.readTimeMillis (s.statesAt · q) (s.coversAt · q) (k, v) := by
  obtain ⟨w', hvisit, hbest, hcover⟩ := hs.visitAll_newest k q
  obtain ⟨w, hwalk, hstate⟩ := walkPoint_of_visitAll hc ho hvisit
  have hget : s.getBytes k q = .ok (w'.resolve s.readTimeMillis) := by
    rw [getBytes, hwalk, w'.resolve_eq_shown, ← hstate, ← w.resolve_eq_shown]
    rfl
  rw [hget, Except.ok.injEq]
  exact ⟨fun h => ⟨w', hbest, hcover, h⟩, fun h => h.resolve (hs.injOn k q) hbest hcover⟩

/-- The sources of a scan, once opened, are ready to be merged. -/
theorem running_of_opened {scan : SnapshotScan} (hs : s.Sound) (hc : s.Catalogues files)
    (h : scan.Opened s range (s.toldSources range)) :
    ∃ shares tombstones, scan.Running shares tombstones ∧ ∀ row,
      scan.HasRow shares tombstones row ↔ range.contains row.1 ∧
        RowAt s.readTimeMillis (s.statesAt · range.sequence) (s.coversAt · range.sequence) row := by
  obtain ⟨shares, states, ranges, hfeeds, hlists, hstands, htombstones, hstates⟩ := h.shares
  have hstates : ∀ k, {state | ∃ S ∈ states, state ∈ S k} =
      {state | range.contains k ∧ state ∈ s.statesAt k range.sequence} := fun k =>
    (hstates k).trans (told_states hc range k)
  have hsubset : ∀ k, ∀ state ∈ statesIn shares k,
      range.contains k ∧ state ∈ s.statesAt k range.sequence := by
    rintro k state ⟨share, hshare, hin⟩
    obtain ⟨S, hS, hl⟩ := forall₂_exists hlists hshare
    have hmem : state ∈ {state | ∃ S ∈ states, state ∈ S k} := ⟨S, hS, (hl.newest k state hin).mem⟩
    rwa [hstates] at hmem
  have hcontained : ∀ k, range.contains k → ∀ o, IsNewest age (statesIn shares k) o →
      IsNewest age (s.statesAt k range.sequence) o := by
    intro k hk o ho
    have := newest_statesIn hlists ho
    rw [hstates] at this
    simpa [hk] using this
  refine ⟨shares, _, ⟨h.active, h.initialized, by rw [h.direction, h.range_eq],
    by rwa [h.range_eq], ⟨fun share hshare => ?_, fun share hshare e he habsent => ?_, fun k => ?_,
      fun p hp => ?_⟩, ranges, hstands, htombstones⟩, fun row => ?_⟩
  · obtain ⟨S, -, hl⟩ := forall₂_exists hlists hshare
    rw [h.range_eq]
    exact hl.sorted
  · obtain ⟨-, source, -, hin⟩ := hsubset e.1 .absent ⟨share, hshare, habsent ▸ he⟩
    exact absent_notMem_sourceStates hin
  · exact (hs.injOn k range.sequence).mono fun state hin => (hsubset k state hin).2
  · simp [h.position] at hp
  · rw [HasRow, h.snapshot]
    constructor
    · intro hrow
      obtain ⟨state, hin⟩ := hrow.nonempty
      obtain ⟨hk, -⟩ := hsubset row.1 state hin
      obtain ⟨w, hbest, hcover, hresolve⟩ := hrow
      rw [told_covers hc hk] at hcover
      exact ⟨hk, w, hcontained _ hk _ hbest, hcover, hresolve⟩
    · rintro ⟨hk, w, hbest, hcover, hresolve⟩
      obtain ⟨o, ho⟩ := exists_newest_statesIn shares row.1
      rw [(hcontained _ hk _ ho).unique (hs.injOn row.1 range.sequence) hbest] at ho
      refine ⟨w, ho, ?_, hresolve⟩
      rwa [told_covers hc hk]

/-- A scan yields the keys of its range that a point read finds, once each, with the
    values that it finds, in the order of its direction, and then ends. They are the
    rows of the merge of all the versions and range tombstones. -/
theorem scan_drains (s : ReadSnapshot) (files : List FileMeta) (hc : s.Catalogues files)
    (ho : s.LevelOrdered files) (hs : s.Sound) (range : ScanRange) :
    ∃ rows, (s.scan range).Drains rows ∧
      rows.Pairwise (fun row row' => Ahead range.reverse row.1 row'.1) ∧
      (∀ k v, (k, v) ∈ rows ↔
        range.contains k ∧ s.getBytes k range.sequence = .ok (some v)) ∧
      ∀ row, row ∈ rows ↔ range.contains row.1 ∧
        SnapshotScan.RowAt s.readTimeMillis (s.statesAt · range.sequence)
          (s.coversAt · range.sequence) row := by
  obtain ⟨scan, hopen, hopened⟩ := opened_initializeSources hs hc range
  obtain ⟨shares, tombstones, hrunning, hrows⟩ := running_of_opened hs hc hopened
  obtain ⟨rows, hdrains, hsorted, hmem⟩ := hrunning.drains rfl hopen
  rw [hopened.range_eq] at hsorted
  have hmem := fun row => (hmem row).trans (hrows row)
  refine ⟨rows, hdrains, hsorted, fun k v => ?_, hmem⟩
  rw [hmem, getBytes_eq_some hc ho hs]

end ReadSnapshot

/-! ## Scans of two snapshots -/

theorem layerSnapshot_sound : layerSnapshot.Sound where
  opens file _ := ⟨_, rfl, by simp [SstContents.VersionSorted, layerContents]⟩
  agree k := by
    -- The states are a tombstone at 9 and the value that the files have, at their sequences.
    have hstate : ∀ state ∈ layerSnapshot.statesAt k usizeMax,
        state = .tombstone 9 ∨ ∃ file ∈ layerFiles, state = .value [] file.sstSeq none .put := by
      rintro state ⟨source | file, hsource, hstate⟩
      · left
        rw [Set.mem_ofPred_eq, ReadSnapshot.sources] at hsource
        simp only [memtables, layerSnapshot, reverse_nil, map_cons,
          map_nil, cons_append, nil_append, mem_cons, mem_map,
          reduceCtorEq, and_false, exists_false, or_false, ReadSource.memtable.injEq] at hsource
        subst hsource
        obtain ⟨v, hv, -, -, rfl⟩ := hstate
        rw [mem_singleton.1 hv]
        rfl
      · right
        have hfile : file ∈ layerFiles := by
          simpa [ReadSnapshot.sources, layerSnapshot_catalogues.view,
            mem_files_fromShared] using hsource
        obtain ⟨d, hd, v, hv, -, -, rfl, -⟩ := hstate
        obtain rfl := Except.ok.inj hd
        rw [mem_singleton.1 hv]
        exact ⟨file, hfile, rfl⟩
    have hseq : ∀ file ∈ layerFiles, file.sstSeq ≠ 9 := by decide
    intro a ha b hb hab
    rcases hstate a ha with rfl | ⟨f, hf, rfl⟩ <;> rcases hstate b hb with rfl | ⟨g, hg, rfl⟩
    · rfl
    · exact absurd hab.symm (hseq g hg)
    · exact absurd hab (hseq f hf)
    · rw [show f.sstSeq = g.sstSeq from hab]

/-- A scan of all keys, at sequence 8. -/
def wholeRange : ScanRange where
  start := none
  stop := none
  reverse := false
  sequence := 8

theorem scan_drains_layers : layerSnapshot.getBytes readKey 8 = .ok (some []) ∧
    ∃ rows, (layerSnapshot.scan wholeRange).Drains rows ∧ (readKey, []) ∈ rows := by
  have hget : layerSnapshot.getBytes readKey 8 = .ok (some []) := rfl
  obtain ⟨rows, hdrains, -, hrows, -⟩ := scan_drains layerSnapshot layerFiles
    layerSnapshot_catalogues layerSnapshot_levelOrdered layerSnapshot_sound wholeRange
  exact ⟨hget, rows, hdrains, (hrows readKey []).2 ⟨rfl, hget⟩⟩

/-- The memtable holds an older version of the key than L0. -/
def staleSnapshot : ReadSnapshot where
  memtable := ⟨[⟨readKey, 1, false, some [], none⟩], [], by simp⟩
  immutableMemtables := []
  sstView := .fromShared [layerFile "a" 0 4]
  sstReader _ := .ok ⟨[⟨readKey, 4, false, some [Fin.last 255], none⟩], []⟩

/-- A point read stops at the memtable; a scan passes it. -/
theorem scan_passes_stale_memtable :
    staleSnapshot.getBytes readKey wholeRange.sequence = .ok (some []) ∧
      (staleSnapshot.scan wholeRange).next.1 = some (.ok (readKey, [Fin.last 255])) :=
  ⟨rfl, by decide⟩

end Midge
