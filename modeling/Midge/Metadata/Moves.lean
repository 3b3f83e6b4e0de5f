import Midge.Compaction.Overlap

/-!
# Logical level moves

A compaction of files that overlap nothing only changes their level in the
manifest. The edit is checked against the manifest as it is when it is applied:
the captured files must be unchanged, and nothing may overlap them that they
would have to be merged with (`validateSstMove`).
-/

namespace Midge

open FileMeta List

/-- The bounds of a file, if they are complete. -/
def bounds (file : FileMeta) : Option (Key × Key) := GrandparentOverlap.completeBounds file

/-- Whether two files may share a key. -/
def overlaps (left right : FileMeta) : Bool :=
  match bounds left, bounds right with
  | some (ll, lu), some (rl, ru) => decide (ll ≤ ru) && decide (rl ≤ lu)
  | _, _ => true

/-- A manifest edit that does not fit the manifest. -/
def invalidTransition (message : String) : MidgeError :=
  .corruption ("invalid manifest transition: " ++ message)

/-- The persisted identity of two entries is the same. -/
def sameIdentity (file other : FileMeta) : Bool :=
  decide (file.name = other.name) && decide (file.level = other.level) &&
    decide (file.sizeBytes = other.sizeBytes) &&
    decide (file.contentCrc32c = other.contentCrc32c) && decide (file.cfId = other.cfId) &&
    decide (file.smallestKey = other.smallestKey) && decide (file.largestKey = other.largestKey) &&
    decide (file.smallestSeq = other.smallestSeq) && decide (file.largestSeq = other.largestSeq) &&
    decide (file.keyBoundsComplete = other.keyBoundsComplete)

/-- Check that the captured files are live and unchanged, and count those that
    are already at the target level. -/
def checkCaptured (files : List FileMeta) (first : FileMeta) (target : ℕ) :
    List FileMeta → List String → ℕ → MidgeResult ℕ
  | [], _, moved => .ok moved
  | file :: captured, names, moved =>
    if file.cfId ≠ first.cfId ∨ file.level ≠ first.level ∨ file.name ∈ names ∨
        bounds file = none ∨ file.contentCrc32c = none then
      .error (invalidTransition "SST move lacks complete source identity and bounds")
    else
      match files.find? fun current => current.name = file.name with
      | none => .error (invalidTransition "SST move source is no longer live")
      | some current =>
        let reflected := decide (current.level = target)
        let original := if reflected then { current with level := file.level } else current
        if !sameIdentity original file || decide (original.sstSeq ≠ file.sstSeq) ||
            decide (original.sublevel ≠ file.sublevel) ||
            decide (original.earliestExpirationMillis ≠ file.earliestExpirationMillis) then
          .error (invalidTransition "SST move source identity or ordering changed")
        else
          checkCaptured files first target captured (file.name :: names)
            (if reflected then moved + 1 else moved)

/-- Whether a remaining file may be older than a selected one. -/
def mayBeOlder (remaining selected : FileMeta) : Bool :=
  match remaining.smallestSeq, selected.largestSeq with
  | some remainingFirst, some selectedLast => decide (remainingFirst ≤ selectedLast)
  | _, _ => true

/-- Check a captured file against the other files of its family. -/
def checkOthers (first : FileMeta) (target : ℕ) (file : FileMeta) :
    List FileMeta → MidgeResult Unit
  | [] => .ok ()
  | other :: others =>
    if other.level = target ∧ overlaps file other then
      .error (invalidTransition "SST move target acquired conflicting coverage")
    else if first.level = 0 ∧ other.level = 0 ∧ overlaps file other ∧ mayBeOlder other file then
      .error (invalidTransition "SST move would pass older overlapping L0 coverage")
    else if 0 < first.level ∧ other.level = first.level ∧ overlaps file other then
      .error (invalidTransition "SST move source level requires overlap repair")
    else checkOthers first target file others

/-- Check that no two captured files overlap, and each of them against the other
    files. -/
def checkSources (first : FileMeta) (target : ℕ) (others : List FileMeta) :
    List FileMeta → List FileMeta → MidgeResult Unit
  | _, [] => .ok ()
  | before, file :: captured =>
    if before.any (overlaps file) then
      .error (invalidTransition "SST move sources require a merge")
    else do
      checkOthers first target file others
      checkSources first target others (before ++ [file]) captured

/-- Validate a move against the manifest. Returns whether it is already
    reflected. -/
def validateSstMove (files captured : List FileMeta) (target : ℕ) : MidgeResult Bool :=
  match captured with
  | [] => .error (invalidTransition "empty SST move")
  | first :: _ =>
    if first.level + 1 ≠ target ∨ 2 ^ 32 ≤ first.level + 1 then
      .error (invalidTransition "SST move must promote one logical level")
    else do
      let moved ← checkCaptured files first target captured [] 0
      if moved ≠ 0 ∧ moved ≠ captured.length then
        .error (invalidTransition "SST move is only partially reflected")
      else do
        let names := captured.map name
        let others := files.filter fun other =>
          decide (other.cfId = first.cfId) && decide (other.name ∉ names)
        checkSources first target others [] captured
        return decide (moved ≠ 0)

/-- The entry of a file after a move: the captured entry at the target level. -/
def movedEntry (captured : List FileMeta) (target : ℕ) (file : FileMeta) : FileMeta :=
  match captured.find? fun moved => moved.name = file.name with
  | some moved => { moved with level := target }
  | none => file

/-! ## What an accepted move has been checked for -/

/-- The captured entry is that of a live file, unchanged. -/
structure Captured (files : List FileMeta) (first : FileMeta) (file current : FileMeta) :
    Prop where
  cfId : file.cfId = first.cfId
  level : file.level = first.level
  bounds : Midge.bounds file ≠ none
  found : files.find? (fun current => current.name = file.name) = some current
  identity : sameIdentity current file

variable {captured files : List FileMeta} {target : ℕ} {first : FileMeta}

theorem sameIdentity_iff {file other : FileMeta} : sameIdentity file other ↔
    file.name = other.name ∧ file.level = other.level ∧ file.sizeBytes = other.sizeBytes ∧
      file.contentCrc32c = other.contentCrc32c ∧ file.cfId = other.cfId ∧
      file.smallestKey = other.smallestKey ∧ file.largestKey = other.largestKey ∧
      file.smallestSeq = other.smallestSeq ∧ file.largestSeq = other.largestSeq ∧
      file.keyBoundsComplete = other.keyBoundsComplete := by
  simp [sameIdentity, and_assoc]

/-- The current entry of a file, with its level as it was before the move. -/
def originalEntry (target : ℕ) (file current : FileMeta) : FileMeta :=
  if current.level = target then { current with level := file.level } else current

/-- A captured file can be moved, and its current entry is as captured. -/
structure Unchanged (first : FileMeta) (target : ℕ) (file current : FileMeta) : Prop where
  cfId : file.cfId = first.cfId
  level : file.level = first.level
  bounds : Midge.bounds file ≠ none
  checksum : file.contentCrc32c ≠ none
  identity : sameIdentity (originalEntry target file current) file
  sstSeq : (originalEntry target file current).sstSeq = file.sstSeq
  sublevel : (originalEntry target file current).sublevel = file.sublevel
  expiration : (originalEntry target file current).earliestExpirationMillis =
    file.earliestExpirationMillis

/-- The file is at the target level. -/
def isMoved (files : List FileMeta) (target : ℕ) (file : FileMeta) : Bool :=
  (files.find? fun current => current.name = file.name).any fun current => current.level = target

theorem checkCaptured_eq_ok {names : List String} {moved total : ℕ} :
    checkCaptured files first target captured names moved = .ok total ↔
      (captured.map name).Nodup ∧
      (∀ file ∈ captured, file.name ∉ names ∧ ∃ current,
        files.find? (fun current => current.name = file.name) = some current ∧
          Unchanged first target file current) ∧
      total = moved + captured.countP (isMoved files target) := by
  induction captured generalizing names moved with
  | nil => simp [checkCaptured, eq_comm]
  | cons file captured ih =>
    rw [checkCaptured, map_cons, nodup_cons, forall_mem_cons, countP_cons]
    by_cases hsource : file.cfId ≠ first.cfId ∨ file.level ≠ first.level ∨ file.name ∈ names ∨
        bounds file = none ∨ file.contentCrc32c = none
    · rw [if_pos hsource]
      refine iff_of_false (by simp) ?_
      rintro ⟨-, ⟨⟨hname, current, -, h⟩, -⟩, -⟩
      rcases hsource with h' | h' | h' | h' | h'
      exacts [h' h.cfId, h' h.level, hname h', h.bounds h', h.checksum h']
    · rw [if_neg hsource]
      simp only [not_or, ne_eq, not_not] at hsource
      obtain ⟨hcf, hlevel, hname, hbounds, hchecksum⟩ := hsource
      cases hfind : files.find? fun current => current.name = file.name with
      | none => simp
      | some current =>
        have hmoved : isMoved files target file = decide (current.level = target) := by
          simp [isMoved, hfind]
        have hcheck : (!sameIdentity (originalEntry target file current) file ||
            decide ((originalEntry target file current).sstSeq ≠ file.sstSeq) ||
            decide ((originalEntry target file current).sublevel ≠ file.sublevel) ||
            decide ((originalEntry target file current).earliestExpirationMillis ≠
              file.earliestExpirationMillis)) = true ↔ ¬ Unchanged first target file current := by
          rw [← not_iff_not, not_not]
          simp only [Bool.or_eq_true, Bool.not_eq_true', decide_eq_true_eq, not_or, not_not,
            Bool.not_eq_false, ne_eq]
          exact ⟨fun ⟨⟨⟨h, h₁⟩, h₂⟩, h₃⟩ => ⟨hcf, hlevel, hbounds, hchecksum, h, h₁, h₂, h₃⟩,
            fun h => ⟨⟨⟨h.identity, h.sstSeq⟩, h.sublevel⟩, h.expiration⟩⟩
        have hentry : (if decide (current.level = target) = true then
            { current with level := file.level } else current) = originalEntry target file current := by
          simp [originalEntry]
        simp only [hentry, hmoved, Option.some.injEq, exists_eq_left']
        by_cases hunchanged : Unchanged first target file current
        · rw [if_neg (hcheck.not.2 (not_not.2 hunchanged)), ih]
          have hnames : (∀ f ∈ captured, f.name ∉ file.name :: names ∧ ∃ current,
                files.find? (fun current => current.name = f.name) = some current ∧
                  Unchanged first target f current) ↔
              file.name ∉ captured.map name ∧ ∀ f ∈ captured, f.name ∉ names ∧ ∃ current,
                files.find? (fun current => current.name = f.name) = some current ∧
                  Unchanged first target f current := by
            simp only [mem_cons, not_or, mem_map, not_exists, not_and]
            exact ⟨fun h => ⟨fun f hf heq => (h f hf).1.1 heq, fun f hf => ⟨(h f hf).1.2, (h f hf).2⟩⟩,
              fun h f hf => ⟨⟨h.1 f hf, (h.2 f hf).1⟩, (h.2 f hf).2⟩⟩
          rw [hnames]
          by_cases hlevel' : current.level = target
          all_goals simp only [hlevel', decide_true, decide_false, if_true, Bool.false_eq_true,
            if_false, hname, hunchanged, not_false_eq_true, true_and, and_true, add_zero]
          · rw [show moved + (captured.countP (isMoved files target) + 1) =
              moved + 1 + captured.countP (isMoved files target) by omega]
            tauto
          · tauto
        · rw [if_pos (hcheck.2 hunchanged)]
          simp [hunchanged]

/-- What a captured file does not conflict with. -/
structure NoConflict (first : FileMeta) (target : ℕ) (file other : FileMeta) : Prop where
  atTarget : other.level = target → overlaps file other = false
  zeroLevel : first.level = 0 → other.level = 0 → overlaps file other → mayBeOlder other file = false
  atSource : 0 < first.level → other.level = first.level → overlaps file other = false

theorem checkOthers_eq_ok {file : FileMeta} {others : List FileMeta} :
    checkOthers first target file others = .ok () ↔
      ∀ other ∈ others, NoConflict first target file other := by
  induction others with
  | nil => simp [checkOthers]
  | cons other others ih =>
    rw [checkOthers, forall_mem_cons, ← ih]
    split_ifs with htarget hzero hsource
    · exact iff_of_false (by simp) fun h => by simpa [htarget.2] using h.1.atTarget htarget.1
    · refine iff_of_false (by simp) fun h => ?_
      simpa [hzero.2.2.2] using h.1.zeroLevel hzero.1 hzero.2.1 hzero.2.2.1
    · refine iff_of_false (by simp) fun h => ?_
      simpa [hsource.2.2] using h.1.atSource hsource.1 hsource.2.1
    · refine (and_iff_right ⟨fun hl => ?_, fun h₀ hl ho => ?_, fun hpos hl => ?_⟩).symm
      · simpa [hl] using htarget
      · simpa [h₀, hl, ho] using hzero
      · simpa [hpos, hl] using hsource

theorem checkSources_eq_ok {others before : List FileMeta} :
    checkSources first target others before captured = .ok () ↔
      (∀ file ∈ captured, ∀ other ∈ others, NoConflict first target file other) ∧
      (∀ file ∈ captured, ∀ b ∈ before, overlaps file b = false) ∧
      captured.Pairwise fun a b => overlaps b a = false := by
  induction captured generalizing before with
  | nil => simp [checkSources]
  | cons file captured ih =>
    rw [checkSources]
    split_ifs with hbefore
    · refine iff_of_false (by simp) fun h => ?_
      obtain ⟨b, hb, hoverlaps⟩ := any_eq_true.1 hbefore
      simpa [hoverlaps] using h.2.1 file mem_cons_self b hb
    · have hfile : ∀ b ∈ before, overlaps file b = false := by simpa using hbefore
      have hothers := @checkOthers_eq_ok target first file others
      simp only [except_bind_eq_ok, ih, forall_mem_cons, pairwise_cons, mem_append,
        mem_singleton, or_imp, forall_and, forall_eq]
      constructor
      · rintro ⟨⟨⟩, h, hrest⟩
        rw [hothers] at h
        tauto
      · intro h
        exact ⟨(), hothers.2 h.1.1, by tauto⟩

/-- A move that is accepted, and not reflected yet. -/
structure AcceptedMove (files captured : List FileMeta) (first : FileMeta) (target : ℕ) :
    Prop where
  mem : first ∈ captured
  target_eq : target = first.level + 1
  live : ∀ file ∈ captured, ∃ current, Captured files first file current
  others : ∀ file ∈ captured, ∀ other ∈ files, other.cfId = first.cfId →
    other.name ∉ captured.map name → NoConflict first target file other
  disjoint : captured.Pairwise fun a b => overlaps b a = false

/-- What is checked of a move, whether it is already reflected or not. -/
structure CheckedMove (files captured : List FileMeta) (first : FileMeta) (target : ℕ)
    (reflected : Bool) : Prop where
  head : captured.head? = some first
  target_eq : target = first.level + 1
  target_lt : target < 2 ^ 32
  nodup : (captured.map name).Nodup
  live : ∀ file ∈ captured, ∃ current,
    files.find? (fun current => current.name = file.name) = some current ∧
      Unchanged first target file current ∧ decide (current.level = target) = reflected
  others : ∀ file ∈ captured, ∀ other ∈ files, other.cfId = first.cfId →
    other.name ∉ captured.map name → NoConflict first target file other
  disjoint : captured.Pairwise fun a b => overlaps b a = false

theorem validateSstMove_eq_ok {reflected : Bool} :
    validateSstMove files captured target = .ok reflected ↔
      ∃ first, CheckedMove files captured first target reflected := by
  cases captured with
  | nil => exact iff_of_false (by simp [validateSstMove]) fun ⟨_, h⟩ => by cases h.head
  | cons first captured =>
    rw [validateSstMove]
    by_cases htarget : first.level + 1 ≠ target ∨ 2 ^ 32 ≤ first.level + 1
    · rw [if_pos htarget]
      refine iff_of_false (by simp) fun ⟨first', h⟩ => ?_
      cases h.head
      have := h.target_eq
      have := h.target_lt
      omega
    rw [if_neg htarget]
    have hmoved : ∀ {file current : FileMeta},
        files.find? (fun current => current.name = file.name) = some current →
        isMoved files target file = decide (current.level = target) := fun h => by
      rw [isMoved, h]
      rfl
    simp only [except_bind_eq_ok, checkCaptured_eq_ok]
    constructor
    · rintro ⟨moved, ⟨hnodup, hlive, rfl⟩, h⟩
      split_ifs at h with hpartial
      obtain ⟨⟨⟩, hsources, h⟩ := except_bind_eq_ok.1 h
      obtain ⟨hothers, -, hpair⟩ := checkSources_eq_ok.1 hsources
      cases h
      refine ⟨first, rfl, by omega, by omega, hnodup, fun file hfile => ?_,
        fun file hf other ho hcf hname => hothers file hf other ?_, hpair⟩
      · obtain ⟨-, current, hfind, hunchanged⟩ := hlive file hfile
        refine ⟨current, hfind, hunchanged, ?_⟩
        rw [← hmoved hfind]
        by_cases hzero : (first :: captured).countP (isMoved files target) = 0
        · have := countP_eq_zero.1 hzero file hfile
          simpa [hzero] using this
        · have hall : (first :: captured).countP (isMoved files target) =
              (first :: captured).length := by omega
          have := countP_eq_length.1 hall file hfile
          simpa [hzero] using this
      · rw [mem_filter]
        simpa [ho, hcf] using hname
    · rintro ⟨first', h⟩
      cases h.head
      have hlive : ∀ file ∈ first :: captured, isMoved files target file = reflected := by
        intro file hfile
        obtain ⟨current, hfind, -, hlevel⟩ := h.live file hfile
        rw [hmoved hfind, hlevel]
      refine ⟨_, ⟨h.nodup, fun file hfile => ⟨by simp, ?_⟩, rfl⟩, ?_⟩
      · obtain ⟨current, hfind, hunchanged, -⟩ := h.live file hfile
        exact ⟨current, hfind, hunchanged⟩
      · have hsources : checkSources first target (files.filter fun other =>
            decide (other.cfId = first.cfId) &&
              decide (other.name ∉ (first :: captured).map name)) [] (first :: captured) =
            .ok () := by
          refine checkSources_eq_ok.2 ⟨fun file hfile other hother => ?_, by simp, h.disjoint⟩
          obtain ⟨hother, hrest⟩ := mem_filter.1 hother
          rw [Bool.and_eq_true, decide_eq_true_eq, decide_eq_true_eq] at hrest
          exact h.others file hfile other hother hrest.1 hrest.2
        cases reflected with
        | false =>
          have hzero := countP_eq_zero.2 fun file hfile => by simpa using hlive file hfile
          rw [hzero, if_neg (by simp), hsources]
          rfl
        | true =>
          have hall := countP_eq_length.2 hlive
          rw [hall, if_neg (by simp), hsources]
          rfl

theorem accepted_of_validateSstMove (h : validateSstMove files captured target = .ok false) :
    ∃ first, AcceptedMove files captured first target := by
  obtain ⟨first, h⟩ := validateSstMove_eq_ok.1 h
  refine ⟨first, mem_of_head? h.head, h.target_eq, fun file hfile => ?_, h.others, h.disjoint⟩
  obtain ⟨current, hfound, hunchanged, hlevel⟩ := h.live file hfile
  have hidentity := hunchanged.identity
  rw [originalEntry, if_neg (of_decide_eq_false hlevel)] at hidentity
  exact ⟨current, hunchanged.cfId, hunchanged.level, hunchanged.bounds, hfound, hidentity⟩

/-- The entry of a captured file after a move. -/
theorem movedEntry_of_mem {captured : List FileMeta} {target : ℕ} {file : FileMeta}
    (h : file.name ∈ captured.map name) :
    ∃ moved ∈ captured, moved.name = file.name ∧
      movedEntry captured target file = { moved with level := target } := by
  rw [movedEntry]
  cases hfind : captured.find? fun moved => moved.name = file.name with
  | none =>
    obtain ⟨moved, hmem, hname⟩ := mem_map.1 h
    exact absurd (by simpa using hname) (find?_eq_none.1 hfind moved hmem)
  | some moved =>
    exact ⟨moved, mem_of_find?_eq_some hfind, by simpa using find?_some hfind, rfl⟩

theorem movedEntry_of_not_mem {file : FileMeta} (h : file.name ∉ captured.map name) :
    movedEntry captured target file = file := by
  rw [movedEntry]
  cases hfind : captured.find? fun moved => moved.name = file.name with
  | none => rfl
  | some moved =>
    refine absurd (mem_map.2 ⟨moved, mem_of_find?_eq_some hfind, ?_⟩) h
    simpa using find?_some hfind

end Midge
