import Apme.Daemon.Upload

/-!
# The two upload ingresses compared

Both ingresses work on the same store of normalized paths.  The session ingress
needs the store to be within the caps after each chunk, the stream ingress after
each file, and the stream ingress reads no further than the terminal chunk.
-/

set_option autoImplicit false

namespace Apme.Daemon.Upload

open Apme.Lib Dict

variable {ω φ : Type}

/-- All paths stay in the session root and the store is within the caps after
each chunk. -/
def Admissible (caps : UploadCaps) : Dict String Bytes → List (ScanChunk ω φ) → Prop
  | _, [] => True
  | store, chunk :: rest =>
    ∃ staged, stageFiles chunk.files = .ok staged ∧ Fits caps (store.putAll staged.entries) ∧
      Admissible caps (store.putAll staged.entries) rest

/-- In the middle of some chunk the store is larger than the byte cap. -/
def Peaks (caps : UploadCaps) : Dict String Bytes → List (ScanChunk ω φ) → Prop
  | _, [] => False
  | store, chunk :: rest =>
    ∃ staged, stageFiles chunk.files = .ok staged ∧
      ((∃ front, front <+: staged.entries ∧
          caps.bytes < (store.putAll front).weigh List.length) ∨
        Peaks caps (store.putAll staged.entries) rest)

/-- The chunks up to the first terminal one. -/
def readPart : List (ScanChunk ω φ) → List (ScanChunk ω φ)
  | [] => []
  | chunk :: rest => if chunk.last then [chunk] else chunk :: readPart rest

def storeAfter : Dict String Bytes → List (ScanChunk ω φ) → Dict String Bytes
  | store, [] => store
  | store, chunk :: rest =>
    match stageFiles chunk.files with
    | .ok staged => storeAfter (store.putAll staged.entries) rest
    | .error _ => store

section

variable (caps : UploadCaps) (store : Dict String Bytes) (chunk : ScanChunk ω φ)
  (rest : List (ScanChunk ω φ))
  {staged : Dict String Bytes}

theorem admissible_cons_of_ok (hs : stageFiles chunk.files = .ok staged) :
    Admissible caps store (chunk :: rest) ↔
      Fits caps (store.putAll staged.entries) ∧
        Admissible caps (store.putAll staged.entries) rest := by
  simp only [Admissible, hs, Except.ok.injEq, exists_eq_left']

theorem peaks_cons_of_ok (hs : stageFiles chunk.files = .ok staged) :
    Peaks caps store (chunk :: rest) ↔
      (∃ front, front <+: staged.entries ∧ caps.bytes < (store.putAll front).weigh List.length) ∨
        Peaks caps (store.putAll staged.entries) rest := by
  simp only [Peaks, hs, Except.ok.injEq, exists_eq_left']

theorem not_admissible_of_error {e : UploadError}
    (hs : stageFiles chunk.files = .error e) : ¬ Admissible caps store (chunk :: rest) := by
  rintro ⟨staged, hs', -⟩
  rw [hs] at hs'
  cases hs'

end

section

variable (caps : UploadCaps) (store : Dict String Bytes)

theorem admissible_readPart (chunks : List (ScanChunk ω φ))
    (ha : Admissible caps store chunks) : Admissible caps store (readPart chunks) := by
  induction chunks generalizing store with
  | nil => exact ha
  | cons chunk rest ih =>
    obtain ⟨staged, hs, hf, hl⟩ := ha
    rw [readPart]
    split
    next => exact ⟨staged, hs, hf, trivial⟩
    next => exact ⟨staged, hs, hf, ih _ hl⟩

/-- The file count only grows inside a chunk, so the loop over its files can
fail on the way for the bytes alone. -/
theorem all_fit_iff (fits : Fits caps store) (pairs : List (String × Bytes)) :
    (∀ front, front <+: pairs → front ≠ [] → Fits caps (store.putAll front)) ↔
      Fits caps (store.putAll pairs) ∧
        ¬ ∃ front, front <+: pairs ∧ caps.bytes < (store.putAll front).weigh List.length := by
  constructor
  · intro haf
    have hf : ∀ front, front <+: pairs → Fits caps (store.putAll front) := by
      intro front hw
      cases front with
      | nil => exact fits
      | cons pair tail => exact haf (pair :: tail) hw (by simp)
    refine ⟨hf pairs List.prefix_rfl, ?_⟩
    rintro ⟨front, hw, hl⟩
    exact absurd (hf front hw).2 (Nat.not_le.mpr hl)
  · rintro ⟨last, hp⟩ front ⟨back, rfl⟩ -
    constructor
    · have hg := length_le_putAll (store.putAll front) back
      have hwh : (store.putAll front).putAll back = store.putAll (front ++ back) := by
        rw [putAll, putAll, putAll, List.foldl_append]
      rw [hwh] at hg
      exact Nat.le_trans hg last.1
    · exact Nat.not_lt.mp fun hl => hp ⟨front, List.prefix_append front back, hl⟩

theorem appendAll_eq_ok_iff (ses : SessionState)
    (chunks : List (ScanChunk ω φ)) (hu : ses.uploadSealed = false) :
    (∀ res, appendAll caps ses chunks = .ok res →
        res.originalFiles = storeAfter ses.originalFiles chunks) ∧
      ((∃ res, appendAll caps ses chunks = .ok res) ↔
        Admissible caps ses.originalFiles chunks) := by
  induction chunks generalizing ses with
  | nil =>
    refine ⟨fun res hs => ?_, fun _ => trivial, fun _ => ⟨ses, rfl⟩⟩
    cases hs
    rfl
  | cons chunk rest ih =>
    rw [appendAll]
    cases ha : sessionUploadAppend caps ses chunk with
    | error e =>
      refine ⟨nofun, nofun, ?_⟩
      rintro ⟨staged, hst, hf, -⟩
      have ht := (sessionUploadAppend_eq_ok_iff caps ses chunk hu _).mpr ⟨staged, hst, hf, rfl⟩
      rw [ha] at ht
      cases ht
    | ok next =>
      obtain ⟨staged, hst, hf, rfl⟩ :=
        (sessionUploadAppend_eq_ok_iff caps ses chunk hu next).mp ha
      rw [admissible_cons_of_ok caps ses.originalFiles chunk rest hst,
        and_iff_right hf, storeAfter, hst]
      exact ih _ (by exact hu)

theorem accumulateFrom_eq_ok_iff (acc : Accumulated ω φ) (hf : Fits caps acc.files)
    (hto : acc.totalBytes = acc.files.weigh List.length) (chunks : List (ScanChunk ω φ)) :
    (∀ res, accumulateFrom caps acc chunks = .ok res →
        res.files = storeAfter acc.files (readPart chunks)) ∧
      ((∃ res, accumulateFrom caps acc chunks = .ok res) ↔
        Admissible caps acc.files (readPart chunks) ∧ ¬ Peaks caps acc.files (readPart chunks)) := by
  induction chunks generalizing acc with
  | nil =>
    refine ⟨fun res hs => ?_, fun _ => ⟨trivial, id⟩, fun _ => ⟨acc, rfl⟩⟩
    cases hs
    rfl
  | cons chunk rest ih =>
    obtain ⟨read, cut, hso⟩ : ∃ read, readPart (chunk :: rest) = chunk :: read ∧
        read = if chunk.last then [] else readPart rest := by
      rw [readPart]
      split <;> exact ⟨_, rfl, rfl⟩
    rw [accumulateFrom, cut]
    cases hst : stageFiles chunk.files with
    | error e =>
      exact ⟨nofun, nofun, fun ht =>
        absurd ht.1 (not_admissible_of_error caps acc.files chunk read hst)⟩
    | ok staged =>
      have loop := accumulateStaged_eq_ok_iff caps acc.files staged.entries
      rw [all_fit_iff caps acc.files hf] at loop
      rw [admissible_cons_of_ok caps acc.files chunk read hst,
        peaks_cons_of_ok caps acc.files chunk read hst, storeAfter, hst]
      simp only [bind, Except.bind, hto]
      cases hl : accumulateStaged caps acc.files (acc.files.weigh List.length)
          staged.entries with
      | error e =>
        refine ⟨nofun, nofun, fun ⟨⟨last, _⟩, hp⟩ => ?_⟩
        have ht := (loop _).mpr ⟨⟨last, fun peak => hp (.inl peak)⟩, rfl⟩
        rw [hl] at ht
        cases ht
      | ok placed =>
        obtain ⟨⟨last, hp⟩, rfl⟩ := (loop placed).mp hl
        rw [and_iff_right last, or_iff_right hp, hso]
        by_cases hterm : chunk.last
        · simp only [hterm, if_true, pure, Except.pure]
          refine ⟨fun res hs => ?_, fun _ => ⟨trivial, id⟩, fun _ => ⟨_, rfl⟩⟩
          cases hs
          rfl
        · simp only [hterm]
          exact ih _ last rfl

end

/-- Both ingresses take the chunks or neither does, and what they store is the
same. -/
def IngressesAgree (caps : UploadCaps) (fresh : String) (chunks : List (ScanChunk ω φ)) : Prop :=
  ((∃ e, accumulateChunks caps fresh chunks = .error e) ↔
      ∃ e, appendAll caps {} chunks = .error e) ∧
    ∀ acc session, accumulateChunks caps fresh chunks = .ok acc →
      appendAll caps {} chunks = .ok session →
        ∀ path, acc.files.get? path = session.originalFiles.get? path

theorem exists_error_iff {ε α : Type} (res : Except ε α) :
    (∃ e, res = .error e) ↔ ¬ ∃ a, res = .ok a := by
  cases res <;> simp

/-- The ingresses agree on a stream exactly when, as far as the stream ingress
reads it and the session ingress takes that part, the byte cap is passed inside
a chunk only if the session ingress refuses a later chunk, and without such a
peak the chunks after the terminal one are taken and change no content. -/
theorem ingresses_agree_iff (caps : UploadCaps) (fresh : String) (chunks : List (ScanChunk ω φ)) :
    IngressesAgree caps fresh chunks ↔
      (Admissible caps empty (readPart chunks) →
        (Peaks caps empty (readPart chunks) ↔ ¬ Admissible caps empty chunks) ∧
          (¬ Peaks caps empty (readPart chunks) →
            ∀ path, (storeAfter empty (readPart chunks)).get? path =
              (storeAfter empty chunks).get? path)) := by
  obtain ⟨appended, appends⟩ := appendAll_eq_ok_iff caps {} chunks rfl
  obtain ⟨drained, drains⟩ :=
    accumulateFrom_eq_ok_iff caps ({} : Accumulated ω φ) (fits_empty caps) rfl chunks
  have accumulates : (∃ result, accumulateChunks caps fresh chunks = .ok result) ↔
      Admissible caps empty (readPart chunks) ∧ ¬ Peaks caps empty (readPart chunks) := by
    rw [← drains, accumulateChunks]
    cases accumulateFrom caps ({} : Accumulated ω φ) chunks with
    | error e => exact ⟨nofun, nofun⟩
    | ok acc => exact ⟨fun _ => ⟨_, rfl⟩, fun _ => ⟨_, rfl⟩⟩
  have accumulated : ∀ result, accumulateChunks caps fresh chunks = .ok result →
      result.files = storeAfter empty (readPart chunks) := by
    rw [accumulateChunks]
    cases run : accumulateFrom caps ({} : Accumulated ω φ) chunks with
    | error e => exact nofun
    | ok acc =>
      intro result same
      cases same
      exact drained acc run
  have readable := admissible_readPart caps empty chunks
  rw [IngressesAgree, exists_error_iff, exists_error_iff, accumulates, appends, not_iff_not]
  constructor
  · rintro ⟨sameVerdict, sameContent⟩ admissible
    refine ⟨?_, fun noPeak path => ?_⟩
    · rw [← sameVerdict, and_iff_right admissible, not_not]
    · obtain ⟨acc, accepted⟩ := accumulates.mpr ⟨admissible, noPeak⟩
      obtain ⟨session, taken⟩ := appends.mpr (sameVerdict.mp ⟨admissible, noPeak⟩)
      have same := sameContent acc session accepted taken path
      rw [accumulated acc accepted, appended session taken] at same
      exact same
  · intro agreement
    refine ⟨⟨fun ⟨admissible, noPeak⟩ => ?_, fun admissible => ?_⟩, ?_⟩
    · exact not_not.mp fun refused => noPeak ((agreement admissible).1.mpr refused)
    · have read := readable admissible
      exact ⟨read, fun peak => (agreement read).1.mp peak admissible⟩
    · intro acc session accepted taken path
      obtain ⟨admissible, noPeak⟩ := accumulates.mp ⟨acc, accepted⟩
      rw [accumulated acc accepted, appended session taken]
      exact (agreement admissible).2 noPeak path

/-- The second chunk swaps the sizes of two files: it grows the first one before
it empties the other. -/
def swappedSizes : List (ScanChunk Unit Unit) :=
  [{ files := [{ path := "a.yml", content := [1, 1] }, { path := "b.yml", content := [1] }] },
   { files := [{ path := "a.yml", content := [1, 1, 1] }, { path := "b.yml", content := [] }]
     last := true }]

/-- With room for two files and three bytes the stream ingress refuses the
swapped sizes, which the session ingress takes; and a chunk after the terminal
one reaches the session ingress alone. -/
theorem swappedSizes_refused :
    accumulateChunks { files := 2, bytes := 3 } "scan" swappedSizes = .error (.sizeLimit 4 3) ∧
      (∃ session, appendAll { files := 2, bytes := 3 } {} swappedSizes = .ok session ∧
        session.originalFiles.entries = [("a.yml", [1, 1, 1]), ("b.yml", [])]) ∧
      ¬ IngressesAgree { files := 2, bytes := 3 } "scan" swappedSizes ∧
      ¬ IngressesAgree { files := 2, bytes := 3 } "scan"
        [({ files := [], last := true } : ScanChunk Unit Unit),
         { files := [{ path := "a.yml", content := [1] }] }] := by
  have refused : accumulateChunks { files := 2, bytes := 3 } "scan" swappedSizes =
      .error (.sizeLimit 4 3) := rfl
  have taken : ∃ session, appendAll { files := 2, bytes := 3 } {} swappedSizes = .ok session ∧
      session.originalFiles.entries = [("a.yml", [1, 1, 1]), ("b.yml", [])] := ⟨_, rfl, by decide⟩
  refine ⟨refused, taken, fun agree => ?_, fun agree => ?_⟩
  · obtain ⟨session, accepted, -⟩ := taken
    obtain ⟨e, failed⟩ := agree.1.mp ⟨_, refused⟩
    rw [accepted] at failed
    cases failed
  · have differ := agree.2 _ _ rfl rfl "a.yml"
    revert differ
    decide

end Apme.Daemon.Upload
