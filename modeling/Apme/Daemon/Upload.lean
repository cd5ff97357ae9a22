import Apme.Builder.Definitions
import Apme.Lib.Weight

/-!
# Upload ingress

A client sends its files in chunks.  A fix session adds each chunk with
`_session_upload_append`, which looks at the caps once, on the net change of the
whole chunk; the one-shot calls drain the stream with `_accumulate_chunks`,
which looks at them after every file and stops reading at the terminal chunk.
-/

set_option autoImplicit false

namespace Apme.Daemon.Upload

open Apme.Lib Apme.Builder Dict

abbrev Bytes := List UInt8

structure File where
  path : String
  content : Bytes

/-- A chunk of the stream.  The scan and fix options are passed on unread. -/
structure ScanChunk (ω φ : Type) where
  files : List File
  last : Bool := false
  scanId : String := ""
  projectRoot : String := ""
  options : Option ω := none
  fixOptions : Option φ := none

inductive UploadError where
  | escapesRoot (path : String)
  | alreadyProcessed
  | fileLimit (count limit : Nat)
  | sizeLimit (bytes : Int) (limit : Nat)
  | differentBytes

structure UploadCaps where
  files : Nat
  bytes : Nat

/-- `path.replace("\\", "/").lstrip("/")`. -/
def posixPath (path : String) : String :=
  String.ofList ((path.toList.map fun c => if c = '\\' then '/' else c).dropWhile (· = '/'))

def normalizeUploadPath (path : String) : Except UploadError String :=
  let normalized := normpath (posixPath path)
  if normalized = "" ∨ normalized = "." ∨ normalized = ".." ∨
      "../".toList <+: normalized.toList then
    .error (.escapesRoot path)
  else .ok normalized

/-- The files of a chunk by normalized path; the last copy of a path wins. -/
def stageFiles (files : List File) : Except UploadError (Dict String Bytes) := do
  let staged ← files.mapM fun file => do
    let path ← normalizeUploadPath file.path
    pure (path, file.content)
  pure (ofList staged)

structure SessionState where
  originalFiles : Dict String Bytes := empty
  workingFiles : Dict String Bytes := empty
  uploadSealed : Bool := false
  uploadSealedHash : String := ""
  uploadSealedChunkHash : String := ""

section Append

variable {ω φ : Type} (caps : UploadCaps)

def sessionUploadAppend (session : SessionState) (chunk : ScanChunk ω φ) :
    Except UploadError SessionState :=
  if session.uploadSealed then .error .alreadyProcessed
  else do
    let staged ← stageFiles chunk.files
    let newKeys := staged.keys.filter fun path => path ∉ session.originalFiles.keys
    let fileTotal := session.originalFiles.keys.length + newKeys.length
    if caps.files < fileTotal then throw (.fileLimit fileTotal caps.files)
    let currentBytes := session.originalFiles.weigh List.length
    let replacedBytes :=
      (staged.entries.map fun entry => (session.originalFiles.get? entry.1).elim 0 List.length).sum
    let incomingBytes := (staged.entries.map fun entry => entry.2.length).sum
    let byteTotal : Int := currentBytes - replacedBytes + incomingBytes
    if caps.bytes < byteTotal then throw (.sizeLimit byteTotal caps.bytes)
    pure
      { session with
        originalFiles := session.originalFiles.putAll staged.entries
        workingFiles := session.workingFiles.putAll staged.entries }

/-- The chunks of a stream are added one by one. -/
def appendAll (caps : UploadCaps) (session : SessionState) :
    List (ScanChunk ω φ) → Except UploadError SessionState
  | [] => .ok session
  | chunk :: rest => do
      let session ← sessionUploadAppend caps session chunk
      appendAll caps session rest

/-- What has been read from a stream.  The file list holds a path once, and a
file is replaced in its place. -/
structure Accumulated (ω φ : Type) where
  files : Dict String Bytes := empty
  totalBytes : Int := 0
  scanId : String := ""
  projectRoot : String := "project"
  options : Option ω := none
  fixOptions : Option φ := none

def accumulateStaged (caps : UploadCaps) :
    Dict String Bytes → Int → List (String × Bytes) → Except UploadError (Dict String Bytes × Int)
  | files, total, [] => .ok (files, total)
  | files, total, (path, content) :: rest =>
    let replaced := (files.get? path).elim 0 List.length
    let total := total + ((content.length : Int) - replaced)
    let files := files.insert path content
    if caps.files < files.keys.length then .error (.fileLimit files.keys.length caps.files)
    else if caps.bytes < total then .error (.sizeLimit total caps.bytes)
    else accumulateStaged caps files total rest

def Accumulated.readHeader (acc : Accumulated ω φ) (chunk : ScanChunk ω φ) : Accumulated ω φ :=
  { acc with
    scanId := if chunk.scanId ≠ "" then chunk.scanId else acc.scanId
    projectRoot := if chunk.projectRoot ≠ "" then chunk.projectRoot else acc.projectRoot
    options := chunk.options.or acc.options
    fixOptions := chunk.fixOptions.or acc.fixOptions }

def accumulateFrom (caps : UploadCaps) (acc : Accumulated ω φ) :
    List (ScanChunk ω φ) → Except UploadError (Accumulated ω φ)
  | [] => .ok acc
  | chunk :: rest => do
      let staged ← stageFiles chunk.files
      let (files, totalBytes) ← accumulateStaged caps acc.files acc.totalBytes staged.entries
      let acc := { acc.readHeader chunk with files, totalBytes }
      if chunk.last then pure acc else accumulateFrom caps acc rest

/-- The drained stream; `fresh` is the scan id made up when the stream has none. -/
def accumulateChunks (fresh : String) (chunks : List (ScanChunk ω φ)) :
    Except UploadError (Accumulated ω φ) := do
  let acc ← accumulateFrom caps {} chunks
  pure { acc with scanId := if acc.scanId ≠ "" then acc.scanId else fresh }

/-! ## What each ingress accepts -/

/-- Within both caps. -/
def Fits (store : Dict String Bytes) : Prop :=
  store.keys.length ≤ caps.files ∧ store.weigh List.length ≤ caps.bytes

variable (caps : UploadCaps)

theorem fits_empty : Fits caps empty := ⟨Nat.zero_le _, Nat.zero_le _⟩

theorem accumulateStaged_eq_ok_iff (store : Dict String Bytes)
    (pairs : List (String × Bytes)) (res : Dict String Bytes × Int) :
    accumulateStaged caps store (store.weigh List.length) pairs = .ok res ↔
      (∀ front, front <+: pairs → front ≠ [] → Fits caps (store.putAll front)) ∧
        res = (store.putAll pairs, ((store.putAll pairs).weigh List.length : Int)) := by
  induction pairs generalizing store with
  | nil =>
    simp only [accumulateStaged, Except.ok.injEq, List.prefix_nil]
    exact ⟨fun hs => ⟨fun front none hm => absurd none hm, hs.symm⟩, fun took => took.2.symm⟩
  | cons pair rest ih =>
    rcases pair with ⟨p, t⟩
    have hc : (store.weigh List.length : Int) +
          (t.length - ((store.get? p).elim 0 List.length : Nat)) =
        (store.insert p t).weigh List.length := by
      have := weigh_insert List.length store p t
      omega
    have hf : (∀ front, front <+: (p, t) :: rest → front ≠ [] →
          Fits caps (store.putAll front)) ↔
        Fits caps (store.insert p t) ∧
          ∀ front, front <+: rest → front ≠ [] → Fits caps ((store.insert p t).putAll front) := by
      constructor
      · intro fits
        refine ⟨fits [(p, t)] (by simp) (by simp), fun front hw hm => ?_⟩
        exact fits ((p, t) :: front) (List.cons_prefix_cons.mpr ⟨rfl, hw⟩) (by simp)
      · rintro ⟨first, hla⟩ front hw hm
        match front, hm with
        | [head], _ => exact (List.cons_prefix_cons.mp hw).1 ▸ first
        | head :: next :: tail, _ =>
          obtain ⟨rfl, hr⟩ := List.cons_prefix_cons.mp hw
          exact hla (next :: tail) hr (by simp)
    simp only [hf, accumulateStaged, hc, Int.ofNat_lt]
    split
    next many => exact ⟨nofun, fun took => absurd took.1.1.1 (Nat.not_le.mpr many)⟩
    next few =>
      split
      next hl => exact ⟨nofun, fun took => absurd took.1.1.2 (Nat.not_le.mpr hl)⟩
      next hsm =>
        have first : Fits caps (store.insert p t) := ⟨Nat.not_lt.mp few, Nat.not_lt.mp hsm⟩
        simp only [ih, first, true_and, putAll_cons]

theorem sessionUploadAppend_eq_ok_iff (ses : SessionState)
    (chunk : ScanChunk ω φ) (hu : ses.uploadSealed = false) (res : SessionState) :
    sessionUploadAppend caps ses chunk = .ok res ↔
      ∃ staged, stageFiles chunk.files = .ok staged ∧
        Fits caps (ses.originalFiles.putAll staged.entries) ∧
          res =
            { ses with
              originalFiles := ses.originalFiles.putAll staged.entries
              workingFiles := ses.workingFiles.putAll staged.entries } := by
  rw [sessionUploadAppend, hu, if_neg Bool.false_ne_true]
  cases hst : stageFiles chunk.files with
  | error e =>
    constructor
    · intro ht
      cases ht
    · rintro ⟨staged, hi, -⟩
      cases hi
  | ok staged =>
    have hc := length_putAll ses.originalFiles staged.entries staged.nodup
    have hwe : (ses.originalFiles.putAll staged.entries).weigh List.length +
          (staged.entries.map fun entry =>
            (ses.originalFiles.get? entry.1).elim 0 List.length).sum =
        ses.originalFiles.weigh List.length +
          (staged.entries.map fun entry => entry.2.length).sum :=
      weigh_putAll List.length ses.originalFiles staged.nodup
    have hco : ses.originalFiles.keys.length +
          (staged.keys.filter fun p => p ∉ ses.originalFiles.keys).length =
        (ses.originalFiles.putAll staged.entries).keys.length := hc.symm
    have hb : (ses.originalFiles.weigh List.length : Int) -
          ((staged.entries.map fun entry =>
            (ses.originalFiles.get? entry.1).elim 0 List.length).sum : Nat) +
          ((staged.entries.map fun entry => entry.2.length).sum : Nat) =
        (ses.originalFiles.putAll staged.entries).weigh List.length := by
      omega
    simp only [bind, Except.bind, pure, Except.pure, Except.ok.injEq, exists_eq_left', hco,
      hb, throw, throwThe, MonadExceptOf.throw, Fits]
    split
    next hm =>
      refine ⟨(by cases ·), fun ht => ?_⟩
      exact absurd ht.1.1 (Nat.not_le.mpr hm)
    next few =>
      split
      next hl =>
        refine ⟨(by cases ·), fun ht => ?_⟩
        exact absurd ht.1.2 (Nat.not_le.mpr (Int.ofNat_lt.mp hl))
      next hs =>
        have hw : (ses.originalFiles.putAll staged.entries).weigh List.length ≤
            caps.bytes := Nat.not_lt.mp fun hl => hs (Int.ofNat_lt.mpr hl)
        simp only [Except.ok.injEq, Nat.not_lt.mp few, hw, true_and]
        exact eq_comm

end Append

end Apme.Daemon.Upload
