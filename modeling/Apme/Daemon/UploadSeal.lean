import Apme.Daemon.Upload
import Apme.Lib.Outcome
import Mathlib.Data.List.Sort
import Mathlib.Data.String.Basic

/-!
# Sealed uploads

The terminal chunk seals an upload, and its digest is kept.  When the chunk is
sent again it is answered from the sealed session if its digest is the same, and
refused otherwise.  The digest is taken over the files in path order, each as
its path, a null byte, its content and a null byte.
-/

set_option autoImplicit false

namespace Apme.Daemon.Upload

open Apme.Lib Apme.Builder List

/-! ## The files of a chunk -/

/-- A path as the upload store keys it. -/
def IsSessionPath (path : String) : Prop := ∃ raw, normalizeUploadPath raw = .ok path

theorem isSessionPath_of_staged {files : List File} {staged : Dict String Bytes}
    (hst : stageFiles files = .ok staged) {path : String} (mem : path ∈ staged.keys) :
    IsSessionPath path := by
  obtain ⟨pairs, hm, hs⟩ := bind_eq_ok.mp hst
  obtain rfl := Except.ok.inj hs
  have hn : ∀ pair ∈ pairs, IsSessionPath pair.1 := by
    have hma := mapM_eq_ok.mp hm
    clear hm hst mem hs
    induction hma with
    | nil => exact nofun
    | cons made _ ih =>
      obtain ⟨path, hP, hs⟩ := bind_eq_ok.mp made
      cases hs
      exact forall_mem_cons.mpr ⟨⟨_, hP⟩, ih⟩
  rcases (Dict.mem_keys_putAll Dict.empty pairs path).mp mem with none | hp
  · cases none
  · obtain ⟨pair, hl, rfl⟩ := mem_map.mp hp
    exact hn pair hl

theorem exists_stageFiles {pairs : List (String × Bytes)} (hno : (pairs.map Prod.fst).Nodup)
    (hn : ∀ pair ∈ pairs, IsSessionPath pair.1) :
    ∃ files staged, stageFiles files = .ok staged ∧ staged.entries = pairs := by
  obtain ⟨files, hma⟩ : ∃ files : List File, List.Forall₂ (fun f pair => (do
      let path ← normalizeUploadPath f.path
      pure (path, f.content)) = Except.ok pair) files pairs := by
    clear hno
    induction pairs with
    | nil => exact ⟨[], .nil⟩
    | cons pair rest ih =>
      obtain ⟨⟨raw, hm⟩, hl⟩ := forall_mem_cons.mp hn
      obtain ⟨files, hma⟩ := ih hl
      exact ⟨{ path := raw, content := pair.2 } :: files, .cons (by rw [hm]; rfl) hma⟩
  refine ⟨files, Dict.ofList pairs, ?_, Dict.entries_ofList pairs hno⟩
  rw [stageFiles, mapM_eq_ok.mpr hma]
  rfl

/-! ## Digests -/

def utf8 (path : String) : Bytes := path.toList.flatMap String.utf8EncodeChar

variable (file : String × Bytes)

def fileRecord : Bytes := utf8 file.1 ++ 0 :: (file.2 ++ [0])

def sortedFiles (files : Dict String Bytes) : List (String × Bytes) :=
  files.entries.insertionSort fun a b => a.1 ≤ b.1

section Replay

variable {ω φ : Type} (sha256 : Bytes → String)

def hashUploadFiles (files : Dict String Bytes) : String :=
  sha256 ((sortedFiles files).flatMap fileRecord)

def hashUploadChunk (chunk : ScanChunk ω φ) : Except UploadError String := do
  let staged ← stageFiles chunk.files
  pure (hashUploadFiles sha256 staged)

inductive UploadReply where
  | collected
  | processed
  | failed
  | replayed

/-- The upload command of a fix session; `succeeds` is whether the processing of
a complete upload succeeds. -/
def fixSessionUpload (caps : UploadCaps) (succeeds : Bool) (session : SessionState)
    (chunk : ScanChunk ω φ) : Except UploadError (SessionState × UploadReply) :=
  if chunk.last && session.uploadSealed then do
    let digest ← hashUploadChunk sha256 chunk
    if digest = session.uploadSealedChunkHash then pure (session, .replayed)
    else throw .differentBytes
  else do
    let session ← sessionUploadAppend caps session chunk
    if chunk.last then
      let digest ← hashUploadChunk sha256 chunk
      if succeeds then
        pure
          ({ session with
             uploadSealed := true
             uploadSealedHash := hashUploadFiles sha256 session.originalFiles
             uploadSealedChunkHash := digest }, .processed)
      else
        pure
          ({ session with
             uploadSealed := false, uploadSealedHash := "", uploadSealedChunkHash := "" }, .failed)
    else pure (session, .collected)

def SamePayload (chunk other : ScanChunk ω φ) : Prop :=
  ∃ staged staged', stageFiles chunk.files = .ok staged ∧ stageFiles other.files = .ok staged' ∧
    ∀ path, staged.get? path = staged'.get? path

/-- What the digest is taken over: files in path order. -/
structure Listing (files : List (String × Bytes)) : Prop where
  ordered : files.Pairwise fun a b => a.1 < b.1
  normal : ∀ file ∈ files, IsSessionPath file.1

variable (files : List (String × Bytes))

/-- No other files are written as the same bytes: there is one file at most, no
other path can be read off the front of its bytes, and its content does not hold
a later path between null bytes. -/
def Unambiguous : Prop :=
  files = [] ∨ ∃ path content, files = [(path, content)] ∧
    (∀ other rest, utf8 path ++ 0 :: content = utf8 other ++ 0 :: rest → IsSessionPath other →
      other = path) ∧
    ∀ front other back, content = front ++ 0 :: (utf8 other ++ 0 :: back) → IsSessionPath other →
      ¬ path < other

theorem flatMap_fileRecord :
    ∃ body, (file :: files).flatMap fileRecord = utf8 file.1 ++ 0 :: (body ++ [0]) ∧
      (files = [] → body = file.2) ∧
      ∀ next rest, files = next :: rest → ∃ back, body = file.2 ++ 0 :: (utf8 next.1 ++ 0 :: back) := by
  induction files generalizing file with
  | nil => exact ⟨file.2, by simp [fileRecord], fun _ => rfl, nofun⟩
  | cons next rest ih =>
    obtain ⟨back, he, -⟩ := ih next
    refine ⟨file.2 ++ 0 :: (utf8 next.1 ++ 0 :: back), ?_, nofun, fun _ _ hs => ⟨back, ?_⟩⟩
    · rw [flatMap_cons, he]
      simp [fileRecord]
    · rw [(List.cons.inj hs).1]

variable {files : List (String × Bytes)}

theorem unambiguous_iff (hli : Listing files) :
    (∀ others, Listing others → others.flatMap fileRecord = files.flatMap fileRecord →
      others = files) ↔ Unambiguous files := by
  cases files with
  | nil =>
    refine ⟨fun _ => .inl rfl, fun _ others _ hs => ?_⟩
    cases others with
    | nil => rfl
    | cons file rest => simp [fileRecord] at hs
  | cons file rest =>
    obtain ⟨p, content⟩ := file
    have hn := hli.normal (p, content) mem_cons_self
    obtain ⟨b, hwr, ha, hm⟩ := flatMap_fileRecord (p, content) rest
    constructor
    · intro hu
      have ho : [(p, b)] = (p, content) :: rest :=
        hu [(p, b)] ⟨pairwise_singleton _ _, by simpa using hn⟩ (by simp [hwr, fileRecord])
      obtain ⟨file, rfl⟩ := List.cons.inj ho
      obtain rfl := (Prod.mk.inj file).2
      refine .inr ⟨p, b, rfl, fun o back hs hno => ?_, fun hf o back hs hno hl => ?_⟩
      · have read := hu [(o, back)] ⟨pairwise_singleton _ _, by simpa using hno⟩
          (by simpa [fileRecord] using congrArg (· ++ [0]) hs.symm)
        exact (Prod.mk.inj (List.cons.inj read).1).1
      · have read := hu [(p, hf), (o, back)]
          ⟨by simpa using hl, by simp [hn, hno]⟩ (by simp [fileRecord, hs])
        simp at read
    · rintro (none | ⟨_, _, hsi, hf, hi⟩) others ho' hs
      · cases none
      obtain ⟨⟨rfl, rfl⟩, rfl⟩ : (p = _ ∧ content = _) ∧ rest = [] := by simpa using hsi
      cases others with
      | nil => simp [fileRecord] at hs
      | cons file others =>
        obtain ⟨body', hw', ha', hm'⟩ := flatMap_fileRecord file others
        rw [hw', hwr, ha rfl] at hs
        have hr : utf8 p ++ 0 :: content = utf8 file.1 ++ 0 :: body' :=
          (append_left_inj [0]).mp (by simpa using hs.symm)
        have head := hf file.1 body' hr (ho'.normal file mem_cons_self)
        rw [head, append_right_inj, List.cons.injEq] at hr
        cases others with
        | nil => rw [hr.2, ha' rfl, ← head]
        | cons next rest =>
          -- The rest of the files would be content of the first one, with a later path in it.
          obtain ⟨back, hsp⟩ := hm' next rest rfl
          have hl := (pairwise_cons.mp ho'.ordered).1 next mem_cons_self
          exact absurd (head ▸ hl) (hi file.2 next.1 back (hr.2.trans hsp)
            (ho'.normal next (by simp)))

theorem listing_sortedFiles {files : List File} {staged : Dict String Bytes}
    (hs : stageFiles files = .ok staged) : Listing (sortedFiles staged) := by
  have ht : Std.Total fun a b : String × Bytes => a.1 ≤ b.1 := ⟨fun a b => le_total a.1 b.1⟩
  have htr : IsTrans (String × Bytes) fun a b => a.1 ≤ b.1 := ⟨fun _ _ _ => le_trans⟩
  have hd : (sortedFiles staged).Pairwise fun a b => a.1 ≠ b.1 :=
    pairwise_map.mp (((perm_insertionSort _ _).map Prod.fst).nodup_iff.mpr staged.nodup)
  refine ⟨?_, fun f mem => isSessionPath_of_staged hs
    (mem_map_of_mem ((mem_insertionSort _).mp mem))⟩
  exact ((pairwise_insertionSort _ staged.entries).and hd).imp fun hb =>
    lt_of_le_of_ne hb.1 hb.2

theorem Listing.staged (hl : Listing files) :
    ∃ raw staged, stageFiles raw = .ok staged ∧ sortedFiles staged = files := by
  have hn : (files.map Prod.fst).Nodup :=
    pairwise_map.mpr (hl.ordered.imp fun less => ne_of_lt less)
  obtain ⟨raw, staged, hst, hs⟩ := exists_stageFiles hn hl.normal
  refine ⟨raw, staged, hst, ?_⟩
  rw [sortedFiles, hs]
  exact List.Pairwise.insertionSort_eq (hl.ordered.imp fun less => le_of_lt less)

theorem sortedFiles_eq_iff {files others : List File} {staged staged' : Dict String Bytes}
    (hst : stageFiles files = .ok staged) (hs' : stageFiles others = .ok staged') :
    sortedFiles staged = sortedFiles staged' ↔ ∀ path, staged.get? path = staged'.get? path := by
  have hm : ∀ (d : Dict String Bytes) f, f ∈ sortedFiles d ↔ d.get? f.1 = some f.2 :=
    fun d f => (mem_insertionSort _).trans (Dict.get?_eq_some_iff d f.1 f.2).symm
  constructor
  · intro hs path
    exact Option.ext fun t => by rw [← hm staged (path, t), hs, hm]
  · intro hs
    have hu : ∀ {files : List (String × Bytes)}, Listing files → files.Nodup := fun hl =>
      hl.ordered.imp fun less hs => absurd (congrArg Prod.fst hs) (ne_of_lt less)
    have first := listing_sortedFiles hst
    have hse := listing_sortedFiles hs'
    refine List.Perm.eq_of_pairwise (fun a b _ _ ab ba => absurd ab (lt_asymm ba)) first.ordered
      hse.ordered ((perm_ext_iff_of_nodup (hu first) (hu hse)).mpr fun f => ?_)
    rw [hm, hm, hs]

variable {chunk : ScanChunk ω φ}

theorem hashUploadChunk_eq {staged : Dict String Bytes}
    (hs : stageFiles chunk.files = .ok staged) :
    hashUploadChunk sha256 chunk = .ok (hashUploadFiles sha256 staged) := by
  rw [hashUploadChunk, hs]
  rfl

theorem sealed_of_processed {caps : UploadCaps} {old after : SessionState}
    (hs : fixSessionUpload sha256 caps true old chunk = .ok (after, .processed)) :
    after.uploadSealed ∧ hashUploadChunk sha256 chunk = .ok after.uploadSealedChunkHash := by
  rw [fixSessionUpload] at hs
  split at hs
  · obtain ⟨digest, -, hr⟩ := bind_eq_ok.mp hs
    split at hr <;> cases hr
  · obtain ⟨ses, -, hs⟩ := bind_eq_ok.mp hs
    split at hs
    · obtain ⟨digest, hh, hr⟩ := bind_eq_ok.mp hs
      cases hr
      exact ⟨rfl, hh⟩
    · cases hs

theorem refused_iff (caps : UploadCaps) (succeeds : Bool) {ses : SessionState}
    {chunk : ScanChunk ω φ} (last : chunk.last) (hd : ses.uploadSealed) :
    (∃ e, fixSessionUpload sha256 caps succeeds ses chunk = .error e) ↔
      hashUploadChunk sha256 chunk ≠ .ok ses.uploadSealedChunkHash := by
  rw [fixSessionUpload, if_pos (by rw [last, hd]; rfl)]
  cases hashUploadChunk sha256 chunk with
  | error e => exact ⟨fun _ => nofun, fun _ => ⟨e, rfl⟩⟩
  | ok digest =>
    simp only [bind, Except.bind]
    split
    next hs => exact ⟨nofun, fun hdi => absurd (congrArg Except.ok hs) hdi⟩
    next ho => exact ⟨fun _ hs => ho (Except.ok.inj hs), fun _ => ⟨_, rfl⟩⟩

/-- A retried terminal chunk is answered from the sealed session for the sealed
files only, exactly when their bytes are unambiguous. -/
theorem sealed_replay_iff (injective : Function.Injective sha256) (chunk : ScanChunk ω φ)
    (staged : Dict String Bytes) (staging : stageFiles chunk.files = .ok staged) :
    ((∀ other : ScanChunk ω φ, hashUploadChunk sha256 other = hashUploadChunk sha256 chunk →
        SamePayload other chunk) ↔ Unambiguous (sortedFiles staged)) ∧
      ∀ caps before after,
        fixSessionUpload sha256 caps true before chunk = .ok (after, .processed) →
          ((∀ (other : ScanChunk ω φ) succeeds, other.last → ¬ SamePayload other chunk →
              ∃ e, fixSessionUpload sha256 caps succeeds after other = .error e) ↔
            Unambiguous (sortedFiles staged)) := by
  have digests : (∀ other : ScanChunk ω φ,
      hashUploadChunk sha256 other = hashUploadChunk sha256 chunk → SamePayload other chunk) ↔
        Unambiguous (sortedFiles staged) := by
    rw [← unambiguous_iff (listing_sortedFiles staging), hashUploadChunk_eq sha256 staging]
    constructor
    · intro faithful others listing same
      obtain ⟨raw, staged', staging', sorted⟩ := listing.staged
      have hashed : hashUploadChunk sha256 { chunk with files := raw } = _ :=
        hashUploadChunk_eq sha256 staging'
      rw [hashUploadFiles, sorted, same] at hashed
      obtain ⟨first, second, isFirst, isSecond, equal⟩ := faithful _ hashed
      obtain rfl := Except.ok.inj (staging'.symm.trans isFirst)
      obtain rfl := Except.ok.inj (staging.symm.trans isSecond)
      exact sorted.symm.trans ((sortedFiles_eq_iff staging' staging).mpr equal)
    · intro unique other hashed
      obtain ⟨staged', staging', digest⟩ := bind_eq_ok.mp hashed
      have same := unique _ (listing_sortedFiles staging') (injective (Except.ok.inj digest))
      exact ⟨staged', staged, staging', staging, (sortedFiles_eq_iff staging' staging).mp same⟩
  refine ⟨digests, fun caps before after sealing => ?_⟩
  obtain ⟨done, kept⟩ := sealed_of_processed sha256 sealing
  rw [← digests, kept]
  constructor
  · intro refused other hashed
    refine not_not.mp fun differs => ?_
    exact (refused_iff sha256 caps true rfl done).mp
      (refused { other with last := true } true rfl differs) hashed
  · intro faithful other succeeds last differs
    exact (refused_iff sha256 caps succeeds last done).mpr fun hashed =>
      differs (faithful other hashed)

/-- What a session holds after any commands: normalized paths within both caps,
and the hash of its files while it is sealed. -/
structure Sound (caps : UploadCaps) (s : SessionState) : Prop where
  fits : Fits caps s.originalFiles
  normal : ∀ path ∈ s.originalFiles.keys, IsSessionPath path
  hash : s.uploadSealed → s.uploadSealedHash = hashUploadFiles sha256 s.originalFiles

variable {sha256} {caps : UploadCaps} {s t : SessionState}

theorem Sound.append (hs : Sound sha256 caps s)
    (ht : sessionUploadAppend caps s chunk = .ok t) : Sound sha256 caps t := by
  cases hu : s.uploadSealed with
  | true =>
    rw [sessionUploadAppend, if_pos hu] at ht
    cases ht
  | false =>
    obtain ⟨staged, hst, hf, rfl⟩ := (sessionUploadAppend_eq_ok_iff caps s chunk hu t).mp ht
    refine ⟨hf, fun path mem => ?_, fun hc => absurd (hu.symm.trans hc) Bool.false_ne_true⟩
    exact ((Dict.mem_keys_putAll _ _ path).mp mem).elim (hs.normal path) (isSessionPath_of_staged hst)

theorem Sound.upload (hs : Sound sha256 caps s) {ok : Bool} {reply : UploadReply}
    (ht : fixSessionUpload sha256 caps ok s chunk = .ok (t, reply)) : Sound sha256 caps t := by
  rw [fixSessionUpload] at ht
  split at ht
  · obtain ⟨digest, -, hr⟩ := bind_eq_ok.mp ht
    split at hr <;> cases hr
    exact hs
  · obtain ⟨u, ha, hr⟩ := bind_eq_ok.mp ht
    obtain ⟨hf, hn, hh⟩ := hs.append ha
    split at hr
    · obtain ⟨digest, -, hr⟩ := bind_eq_ok.mp hr
      split at hr <;> cases hr
      · exact ⟨hf, hn, fun _ => rfl⟩
      · exact ⟨hf, hn, nofun⟩
    · cases hr
      exact ⟨hf, hn, hh⟩

variable (sha256 caps)

/-- A refused command leaves the session as it was. -/
def uploadTurn (session : SessionState) (sent : ScanChunk ω φ × Bool) : SessionState :=
  match fixSessionUpload sha256 caps sent.2 session sent.1 with
  | .ok (after, _) => after
  | .error _ => session

theorem uploads_sound (sent : List (ScanChunk ω φ × Bool)) :
    Sound sha256 caps (sent.foldl (uploadTurn sha256 caps) {}) := by
  refine foldlRecOn sent _ ⟨fits_empty caps, nofun, nofun⟩ ?_
  intro s hs chunk _
  unfold uploadTurn
  split
  next ht => exact hs.upload ht
  next => exact hs

end Replay

/-- A stand-in for the digest that keeps the bytes apart. -/
def asText (bytes : Bytes) : String := String.ofList (bytes.map fun byte => Char.ofNat byte.toNat)

theorem asText_injective : Function.Injective asText := by
  intro bytes others hs
  have hc := String.ofList_injective hs
  refine map_injective_iff.mpr (fun byte o he => ?_) hc
  have nat : ∀ byte : UInt8, (Char.ofNat byte.toNat).toNat = byte.toNat := fun byte => by
    have := byte.toNat_lt
    rw [Char.ofNat, dif_pos (.inl (by omega))]
    rfl
  exact UInt8.toNat_inj.mp (by rw [← nat byte, he, nat])

def terminalChunk (files : List File) : ScanChunk Unit Unit := { files, last := true }

theorem plain_upload_sealed :
    ∃ done, fixSessionUpload asText { files := 2, bytes := 20 } true {}
        (terminalChunk [{ path := "./a", content := [120] }]) = .ok (done, .processed) ∧
      ((∀ (other : ScanChunk Unit Unit) succeeds, other.last →
          ¬ SamePayload other (terminalChunk [{ path := "./a", content := [120] }]) →
          ∃ e, fixSessionUpload asText { files := 2, bytes := 20 } succeeds done other = .error e) ↔
        Unambiguous [("a", [120])]) :=
  ⟨_, rfl, (sealed_replay_iff asText asText_injective
    (terminalChunk [{ path := "./a", content := [120] }]) (Dict.ofList [("a", [120])]) rfl).2 _ {} _
    rfl⟩

/-- Two files, and one file whose content runs over into the second: the sealed
session of the one answers for the other. -/
theorem null_bytes_replayed :
    ∃ done, fixSessionUpload asText { files := 2, bytes := 20 } true {}
        (terminalChunk [{ path := "a", content := [120, 0, 98, 0, 121] }]) = .ok (done, .processed) ∧
      fixSessionUpload asText { files := 2, bytes := 20 } true done
        (terminalChunk [{ path := "a", content := [120] }, { path := "b", content := [121] }]) =
          .ok (done, .replayed) ∧
      ¬ SamePayload
        (terminalChunk [{ path := "a", content := [120] }, { path := "b", content := [121] }])
        (terminalChunk [{ path := "a", content := [120, 0, 98, 0, 121] }]) := by
  refine ⟨_, rfl, rfl, ?_⟩
  rintro ⟨staged, staged', staging, staging', same⟩
  obtain rfl := Except.ok.inj staging
  obtain rfl := Except.ok.inj staging'
  exact absurd (same "b") (by decide)

end Apme.Daemon.Upload
