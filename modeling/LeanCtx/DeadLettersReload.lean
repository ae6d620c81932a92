import LeanCtx.DeadLetters
import LeanCtx.Utf8

/-!
# Reloading the dead-letter store

Along runs in which no recorded failure precedes the first one of its letter,
a file that was written is loaded again. What a call leaves of a scope's
entries is `Sound`: the next load accepts it.
-/

namespace LeanCtx.DeadLetters

open ByteText (Bytes utf8)

variable {env : Env}

/-! ## Valid letters -/

theorem andThen_eq_ok {x y : Except OclaError Unit} :
    (x >>= fun _ => y) = .ok () ↔ x = .ok () ∧ y = .ok () := by
  cases x with
  | error e => simp [bind, Except.bind]
  | ok u => simp [bind, Except.bind]

/-- Both times are read, and the first is not after the last. -/
def Ordered (env : Env) (first last : String) : Prop :=
  ∃ a b, env.parseTime first = some a ∧ env.parseTime last = some b ∧ a ≤ b

theorem validateTimes_eq_ok {letter : DeadLetter} :
    validateTimes env letter = .ok () ↔ Ordered env letter.firstFailedAt letter.lastFailedAt := by
  unfold validateTimes Ordered
  cases env.parseTime letter.firstFailedAt with
  | none => simp
  | some first =>
    cases env.parseTime letter.lastFailedAt with
    | none => simp
    | some last => simp

/-- The checks of a letter's last failure. -/
structure FailureValid (env : Env) (letter : DeadLetter) : Prop where
  error : letter.error ≠ "" ∧ letter.error.utf8ByteSize ≤ maxErrorBytes
  attempts : letter.attempts ≠ 0
  times : Ordered env letter.firstFailedAt letter.lastFailedAt

/-- The other checks. -/
structure AddressValid (env : Env) (letter : DeadLetter) : Prop where
  id : validateIdentifier "id" letter.id = .ok ()
  peerId : validateIdentifier "peer_id" letter.peerId = .ok ()
  deliveryId : validateIdentifier "delivery_id" letter.deliveryId = .ok ()
  scope : letter.scope.validate = .ok ()
  targetAgent : validateIdentifier "target_agent" letter.targetAgent = .ok ()
  message : letter.originalMessage ≠ "" ∧ letter.originalMessage.utf8ByteSize ≤ maxMessageBytes
  delivery : validateDelivery env letter.delivery = .ok ()

theorem validate_eq_ok {letter : DeadLetter} :
    letter.validate env = .ok () ↔ AddressValid env letter ∧ FailureValid env letter := by
  unfold DeadLetter.validate
  simp only [andThen_eq_ok]
  constructor
  · rintro ⟨hid, hpeer, hdelivery, hscope, htarget, h⟩
    split_ifs at h with hmessage herror hattempts
    obtain ⟨htimes, haddress⟩ := andThen_eq_ok.mp h
    rw [not_or, not_lt] at hmessage herror
    exact ⟨⟨hid, hpeer, hdelivery, hscope, htarget, hmessage, haddress⟩, herror, hattempts,
      validateTimes_eq_ok.mp htimes⟩
  · rintro ⟨haddress, hfailure⟩
    refine ⟨haddress.id, haddress.peerId, haddress.deliveryId, haddress.scope,
      haddress.targetAgent, ?_⟩
    rw [if_neg (not_or.mpr ⟨haddress.message.1, not_lt.mpr haddress.message.2⟩),
      if_neg (not_or.mpr ⟨hfailure.error.1, not_lt.mpr hfailure.error.2⟩),
      if_neg hfailure.attempts, andThen_eq_ok, validateTimes_eq_ok]
    exact ⟨hfailure.times, haddress.delivery⟩

/-- A merged failure is checked against the first failure of the letter that is kept. -/
theorem validate_mergeFailure {letter existing : DeadLetter} (hletter : letter.validate env = .ok ())
    (hexisting : existing.validate env = .ok ())
    (htimes : Ordered env existing.firstFailedAt letter.lastFailedAt) :
    (mergeFailure letter existing).validate env = .ok () := by
  obtain ⟨-, hfailure⟩ := validate_eq_ok.mp hletter
  obtain ⟨haddress, hkept⟩ := validate_eq_ok.mp hexisting
  refine validate_eq_ok.mpr ⟨⟨haddress.id, haddress.peerId, haddress.deliveryId, haddress.scope,
    haddress.targetAgent, haddress.message, haddress.delivery⟩, hfailure.error, ?_, htimes⟩
  dsimp only [mergeFailure]
  split
  · exact hfailure.attempts
  · exact hkept.attempts

theorem validate_failRetry {letter : DeadLetter} {now : ℤ} (hletter : letter.validate env = .ok ())
    (htimes : Ordered env letter.firstFailedAt (env.toRfc3339 now)) :
    (failRetry env now letter).validate env = .ok () := by
  obtain ⟨haddress, hfailure⟩ := validate_eq_ok.mp hletter
  refine validate_eq_ok.mpr ⟨⟨haddress.id, haddress.peerId, haddress.deliveryId, haddress.scope,
    haddress.targetAgent, haddress.message, haddress.delivery⟩, hfailure.error, ?_, htimes⟩
  dsimp only [failRetry]
  split
  · decide
  · rename_i hbelow
    intro hzero
    apply hbelow
    have hnat := congrArg UInt8.toNat hzero
    rw [UInt8.toNat_add] at hnat
    have hlt := letter.attempts.toNat_lt
    apply UInt8.toNat_inj.mp
    simp at hnat ⊢
    omega

/-- Only entries of an older version are filled in. -/
theorem checkEntry_eq_ok {scope : DlqScope} {entry : DeadLetter}
    (hvalid : entry.validate env = .ok ()) (hscope : entry.scope = scope) :
    checkEntry env scope entry = .ok entry := by
  have hfull : ∀ label value, validateIdentifier label value = .ok () → value ≠ "" := by
    rintro label value h rfl
    have hblank : ByteText.trim "" = "" := by decide
    simp [validateIdentifier, hblank] at h
  obtain ⟨haddress, -⟩ := validate_eq_ok.mp hvalid
  have hsame : upgradeEntry entry = entry := by
    rw [upgradeEntry, if_neg (hfull _ _ haddress.peerId)]
    exact if_neg (hfull _ _ haddress.deliveryId)
  simp only [checkEntry, hsame, hvalid]
  exact if_neg (not_not.mpr hscope)

/-! ## Sound entries -/

def deliveryKey (letter : DeadLetter) : String × String := (letter.peerId, letter.deliveryId)

/-- The entries of a scope's file as the next load expects them, one for a delivery. -/
structure Sound (env : Env) (scope : DlqScope) (entries : List DeadLetter) : Prop where
  valid : ∀ e ∈ entries, e.validate env = .ok ()
  inScope : ∀ e ∈ entries, e.scope = scope
  bounded : entries.length ≤ maxEntriesPerScope
  distinct : (entries.map deliveryKey).Nodup

namespace Sound

variable {scope : DlqScope} {entries : List DeadLetter}

theorem nil : Sound env scope [] := ⟨nofun, nofun, Nat.zero_le _, List.nodup_nil⟩

theorem sublist {kept : List DeadLetter} (h : Sound env scope entries)
    (hkept : kept.Sublist entries) : Sound env scope kept where
  valid e he := h.valid e (hkept.subset he)
  inScope e he := h.inScope e (hkept.subset he)
  bounded := hkept.length_le.trans h.bounded
  distinct := h.distinct.sublist (hkept.map deliveryKey)

theorem modify {position : ℕ} {update : DeadLetter → DeadLetter} (h : Sound env scope entries)
    (hvalid : ∀ e, entries[position]? = some e → (update e).validate env = .ok ())
    (hscope : ∀ e, (update e).scope = e.scope) (hkey : ∀ e, deliveryKey (update e) = deliveryKey e) :
    Sound env scope (entries.modify position update) where
  valid e he := by
    obtain ⟨i, hi⟩ := List.mem_iff_getElem?.mp he
    rw [List.getElem?_modify] at hi
    obtain ⟨old, hold, rfl⟩ := Option.map_eq_some_iff.mp hi
    split
    · rename_i heq
      exact hvalid old (heq ▸ hold)
    · exact h.valid old (List.mem_of_getElem? hold)
  inScope e he := by
    obtain ⟨i, hi⟩ := List.mem_iff_getElem?.mp he
    rw [List.getElem?_modify] at hi
    obtain ⟨old, hold, rfl⟩ := Option.map_eq_some_iff.mp hi
    have hold := h.inScope old (List.mem_of_getElem? hold)
    split
    · rw [hscope, hold]
    · exact hold
  bounded := by
    rw [List.length_modify]
    exact h.bounded
  distinct := by
    have hsame : (entries.modify position update).map deliveryKey = entries.map deliveryKey := by
      refine List.ext_getElem? fun i => ?_
      rw [List.getElem?_map, List.getElem?_modify, List.getElem?_map, Option.map_eq_map,
        Option.map_map]
      refine Option.map_congr fun e _ => ?_
      dsimp only [Function.comp]
      split
      · exact hkey e
      · rfl
    rw [hsame]
    exact h.distinct

theorem concat {letter : DeadLetter} (h : Sound env scope entries)
    (hvalid : letter.validate env = .ok ()) (hscope : letter.scope = scope)
    (hroom : entries.length < maxEntriesPerScope) (hnew : deliveryKey letter ∉ entries.map deliveryKey) :
    Sound env scope (entries ++ [letter]) where
  valid e he := by
    rcases List.mem_append.mp he with he | he
    · exact h.valid e he
    · rwa [List.mem_singleton.mp he]
  inScope e he := by
    rcases List.mem_append.mp he with he | he
    · exact h.inScope e he
    · rwa [List.mem_singleton.mp he]
  bounded := by
    rw [List.length_append]
    exact hroom
  distinct := by
    rw [List.map_append, List.map_singleton, ← List.concat_eq_append]
    exact h.distinct.concat hnew

/-- Within its scope an entry is known by its delivery. -/
theorem sameDelivery_iff {letter e : DeadLetter} (h : Sound env scope entries)
    (hscope : letter.scope = scope) (he : e ∈ entries) :
    SameDelivery letter e ↔ deliveryKey e = deliveryKey letter := by
  rw [SameDelivery, deliveryKey, deliveryKey, Prod.mk.injEq, h.inScope e he, hscope]
  exact ⟨fun hsame => ⟨hsame.1, hsame.2.1⟩, fun hkey => ⟨hkey.1, hkey.2, rfl⟩⟩

end Sound

/-- What is left of a scope at its limit, before a letter is added. -/
def evicted (scope : DlqScope) (entries : List DeadLetter) : List DeadLetter :=
  if maxEntriesPerScope ≤ entries.countP fun entry => entry.scope = scope then
    entries.eraseP fun entry => entry.scope = scope
  else entries

theorem Sound.length_evicted {scope : DlqScope} {entries : List DeadLetter}
    (h : Sound env scope entries) : (evicted scope entries).length < maxEntriesPerScope := by
  have hall : entries.countP (fun entry => entry.scope = scope) = entries.length :=
    List.countP_eq_length.mpr fun e he => decide_eq_true (h.inScope e he)
  rw [evicted, hall]
  split
  · rename_i hfull
    cases entries with
    | nil => simp [maxEntriesPerScope]
    | cons e rest =>
      have hfirst : (e :: rest).eraseP (fun entry => entry.scope = scope) = rest :=
        List.eraseP_cons_of_pos (by simpa using h.inScope e List.mem_cons_self)
      rw [hfirst]
      exact h.bounded
  · exact Nat.lt_of_not_le ‹_›

theorem shrink_suffix (entries : List DeadLetter) : (shrink entries).1 <:+ entries := by
  induction entries with
  | nil => exact List.suffix_refl _
  | cons letter rest ih =>
    cases rest with
    | nil =>
      rw [shrink]
      split
      · exact List.suffix_refl _
      · exact List.suffix_refl _
    | cons next rest =>
      rw [shrink]
      split
      · exact ih.trans (List.suffix_cons _ _)
      · exact List.suffix_refl _

/-! ## What an operation leaves -/

/-- The failure that a call records does not precede the first failure of its letter. -/
def Timely (env : Env) (entries : List DeadLetter) : Call → Prop
  | .enqueue letter => ∀ existing, entries.find? (fun e => SameDelivery letter e) = some existing →
      Ordered env existing.firstFailedAt letter.lastFailedAt
  | .retry _ id (some _) now => ∀ letter, entries.find? (fun e => e.id = id) = some letter →
      letter.delivery = .localAgentBus → Ordered env letter.firstFailedAt (env.toRfc3339 now)
  | _ => True

theorem sound_enqueue {scope : DlqScope} {entries : List DeadLetter} {letter : DeadLetter}
    (h : Sound env scope entries) (hvalid : letter.validate env = .ok ())
    (hscope : letter.scope = scope) (htimely : Timely env entries (.enqueue letter)) :
    Sound env scope (enqueueEntries letter entries).1 := by
  unfold enqueueEntries
  cases hfind : entries.findIdx? fun entry => SameDelivery letter entry with
  | some position =>
    refine h.modify (fun e he => ?_) (fun _ => rfl) (fun _ => rfl)
    have hfound : entries.find? (fun e => SameDelivery letter e) = some e := by
      rw [List.find?_eq_bind_findIdx?_getElem?, hfind]
      exact he
    exact validate_mergeFailure hvalid (h.valid e (List.mem_of_getElem? he)) (htimely e hfound)
  | none =>
    have hnew : ∀ e ∈ entries, deliveryKey e ≠ deliveryKey letter := by
      intro e he hkey
      have hnone := List.findIdx?_eq_none_iff.mp hfind e he
      exact of_decide_eq_false hnone ((h.sameDelivery_iff hscope he).mpr hkey)
    have hsub : (evicted scope entries).Sublist entries := by
      rw [evicted]
      split
      · exact List.eraseP_sublist
      · exact List.Sublist.refl _
    have hroom : Sound env scope (evicted scope entries ++ [letter]) := by
      refine (h.sublist hsub).concat hvalid hscope h.length_evicted ?_
      intro hmem
      obtain ⟨e, he, hkey⟩ := List.mem_map.mp hmem
      exact hnew e (hsub.subset he) hkey
    subst hscope
    exact hroom.sublist (shrink_suffix _).sublist

theorem sound_operation {entries : List DeadLetter} {call : Call}
    (h : Sound env call.scope entries) (hcheck : call.check env = .ok ())
    (htimely : Timely env entries call) : Sound env call.scope (call.operation env entries).1 := by
  cases call with
  | enqueue letter => exact sound_enqueue h hcheck rfl htimely
  | dequeue scope id =>
    dsimp only [Call.operation, dequeueEntries]
    split
    · exact h.sublist (List.eraseIdx_sublist _ _)
    · exact h
  | retry scope id resend now =>
    dsimp only [Call.operation, retryEntries]
    cases hfind : entries.findIdx? fun letter => letter.id = id with
    | none => exact h
    | some position =>
      dsimp only
      split
      · exact h
      · rename_i hlocal
        cases resend with
        | none => exact h.sublist (List.eraseIdx_sublist _ _)
        | some error =>
          refine h.modify (fun e he => ?_) (fun _ => rfl) (fun _ => rfl)
          rw [not_not, he] at hlocal
          have hfound : entries.find? (fun e => e.id = id) = some e := by
            rw [List.find?_eq_bind_findIdx?_getElem?, hfind]
            exact he
          exact validate_failRetry (h.valid e (List.mem_of_getElem? he))
            (htimely e hfound (Option.some.inj hlocal))

/-! ## Files -/

/-- The entries that stand in a scope's file. -/
def written (env : Env) (files : Files) (scope : DlqScope) : List DeadLetter :=
  match (files (scopeStorePath env scope)).bind env.fromSlice with
  | some store => store.entries
  | none => []

/-- A file holds the sound entries of a scope of the run. -/
def FileSound (env : Env) (scope : DlqScope) (content : Bytes) : Prop :=
  ∃ entries, content = toVecPretty ⟨storeVersion, entries⟩ ∧ content.length ≤ maxStoreBytes ∧
    Sound env scope entries

theorem mapM_checkEntry {scope : DlqScope} {entries : List DeadLetter}
    (hvalid : ∀ e ∈ entries, e.validate env = .ok ()) (hscope : ∀ e ∈ entries, e.scope = scope) :
    entries.mapM (checkEntry env scope) = .ok entries := by
  induction entries with
  | nil => rfl
  | cons e rest ih =>
    rw [List.mapM_cons, checkEntry_eq_ok (hvalid e List.mem_cons_self) (hscope e List.mem_cons_self),
      ih (fun e he => hvalid e (List.mem_cons_of_mem _ he))
        (fun e he => hscope e (List.mem_cons_of_mem _ he))]
    rfl

/-- What was saved is loaded. -/
theorem loadStore_eq_ok {files : Files} {scope : DlqScope} {entries : List DeadLetter}
    (hfile : files (scopeStorePath env scope) = some (toVecPretty ⟨storeVersion, entries⟩))
    (hsize : (toVecPretty ⟨storeVersion, entries⟩).length ≤ maxStoreBytes)
    (h : Sound env scope entries) : loadStore env files scope = .ok ⟨storeVersion, entries⟩ := by
  simp only [loadStore, hfile, if_neg (not_lt.mpr hsize), env.fromSlice_toVecPretty]
  rw [if_neg (not_or.mpr ⟨not_not.mpr rfl, not_lt.mpr h.bounded⟩),
    mapM_checkEntry h.valid h.inScope]
  rfl

/-- The entries with which a call on a scope starts. -/
theorem sound_start {files : Files} {scope : DlqScope}
    (h : ∀ content, files (scopeStorePath env scope) = some content → FileSound env scope content) :
    ∃ entries, loadStore env files scope = .ok ⟨storeVersion, entries⟩ ∧
      written env files scope = entries ∧ Sound env scope entries := by
  cases hfile : files (scopeStorePath env scope) with
  | none =>
    refine ⟨[], ?_, ?_, .nil⟩
    · simp only [loadStore, hfile]
    · simp only [written, hfile, Option.bind_none]
  | some content =>
    obtain ⟨entries, hcontent, hsize, hsound⟩ := h content hfile
    rw [hcontent] at hfile hsize
    refine ⟨entries, loadStore_eq_ok hfile hsize hsound, ?_, hsound⟩
    simp only [written, hfile, Option.bind_some, env.fromSlice_toVecPretty]

/-- The file of a scope after a call. -/
theorem runDurable_file {files : Files} {call : Call}
    (h : ∀ content, files (scopeStorePath env call.scope) = some content →
      FileSound env call.scope content)
    (htimely : Timely env (written env files call.scope) call) :
    (call.runDurable env files).2 = files ∨ call.check env = .ok () ∧ ∃ content,
      FileSound env call.scope content ∧ (call.runDurable env files).2 =
        Function.update files (scopeStorePath env call.scope) (some content) := by
  unfold Call.runDurable
  cases hcheck : call.check env with
  | error e => exact .inl rfl
  | ok u =>
    obtain ⟨entries, hload, hwritten, hsound⟩ := sound_start h
    rw [hwritten] at htimely
    have hafter := sound_operation hsound hcheck htimely
    simp only [withEntries, hload]
    cases hop : call.operation env entries with
    | mk after result =>
      rw [hop] at hafter
      cases result with
      | error e => exact .inl rfl
      | ok reply =>
        simp only [saveStore]
        split
        · rename_i heq
          split_ifs at heq with hbig
          exact .inl rfl
        · rename_i files' heq
          split_ifs at heq with hbig
          obtain rfl := Except.ok.inj heq
          exact .inr ⟨trivial, _, ⟨after, rfl, not_lt.mp hbig, hafter⟩, rfl⟩

/-! ## Names of files -/

theorem nul_not_mem {label value : String} (h : validateIdentifier label value = .ok ()) :
    (0 : UInt8) ∉ utf8 value := by
  intro hmem
  obtain ⟨c, hc, hb⟩ := List.mem_flatMap.mp hmem
  have hzero := Utf8.eq_of_mem_utf8EncodeChar hb (by decide)
  obtain rfl : c = '\x00' := Char.toNat_inj.mp hzero
  rw [validateIdentifier, if_pos (.inr (.inr hc))] at h
  cases h

/-- The separator tells a tenant from its project. -/
theorem material_inj {scope scope' : DlqScope} (h : scope.validate = .ok ())
    (heq : material scope = material scope') : scope = scope' := by
  obtain ⟨htenant, hproject⟩ := andThen_eq_ok.mp h
  obtain ⟨heqTenant, -, heqProject⟩ :=
    (List.append_cons_inj_of_notMem (nul_not_mem htenant) (nul_not_mem hproject)).mp heq
  cases scope
  cases scope'
  rw [DlqScope.mk.injEq]
  exact ⟨ByteText.utf8_inj heqTenant, ByteText.utf8_inj heqProject⟩

/-- The hash tells the scopes of the calls apart. -/
def HashesApart (env : Env) (calls : List Call) : Prop :=
  ∀ c ∈ calls, ∀ d ∈ calls, env.blake3Hex (material c.scope) = env.blake3Hex (material d.scope) →
    material c.scope = material d.scope

theorem HashesApart.scope_eq {calls : List Call} (h : HashesApart env calls) {c d : Call}
    (hc : c ∈ calls) (hd : d ∈ calls) (hvalid : c.scope.validate = .ok ())
    (hpath : scopeStorePath env c.scope = scopeStorePath env d.scope) : c.scope = d.scope := by
  refine material_inj hvalid (h c hc d hd ?_)
  have hchars := congrArg String.toList hpath
  rw [scopeStorePath, scopeStorePath, String.toList_append, String.toList_append] at hchars
  exact String.toList_inj.mp (List.append_cancel_right hchars)

theorem scope_of_check {call : Call} (h : call.check env = .ok ()) :
    call.scope.validate = .ok () := by
  cases call with
  | enqueue letter => exact (validate_eq_ok.mp h).1.scope
  | dequeue scope id => exact (andThen_eq_ok.mp h).1
  | retry scope id resend now => exact (andThen_eq_ok.mp h).1

/-! ## Runs -/

/-- Every file belongs to the scope of a call and is sound. -/
def FilesSound (env : Env) (calls : List Call) (files : Files) : Prop :=
  ∀ path content, files path = some content → ∃ call ∈ calls,
    path = scopeStorePath env call.scope ∧ call.scope.validate = .ok () ∧
      FileSound env call.scope content

theorem FilesSound.file {calls : List Call} {files : Files} (h : FilesSound env calls files)
    (hhash : HashesApart env calls) {call : Call} (hcall : call ∈ calls) {content : Bytes}
    (hfile : files (scopeStorePath env call.scope) = some content) :
    FileSound env call.scope content := by
  obtain ⟨owner, howner, hpath, hvalid, hsound⟩ := h _ _ hfile
  rwa [← hhash.scope_eq howner hcall hvalid hpath.symm]

theorem FilesSound.runDurable {calls : List Call} {files : Files} {call : Call}
    (h : FilesSound env calls files) (hhash : HashesApart env calls) (hcall : call ∈ calls)
    (htimely : Timely env (written env files call.scope) call) :
    FilesSound env calls (call.runDurable env files).2 := by
  rcases runDurable_file (fun _ hfile => h.file hhash hcall hfile) htimely with
    hsame | ⟨hcheck, content, hsound, hafter⟩
  · rwa [hsame]
  · rw [hafter]
    intro path content' hfile
    by_cases hpath : path = scopeStorePath env call.scope
    · rw [hpath, Function.update_self] at hfile
      obtain rfl := Option.some.inj hfile
      exact ⟨call, hcall, hpath, scope_of_check hcheck, hsound⟩
    · rw [Function.update_of_ne hpath] at hfile
      exact h path content' hfile

/-- A scope's file, if there is one, is loaded: its own letters, within the limit, one for a
delivery. -/
def WellKept (env : Env) (files : Files) (scope : DlqScope) : Prop :=
  files (scopeStorePath env scope) ≠ none → ∃ store, loadStore env files scope = .ok store ∧
    (∀ e ∈ store.entries, e.scope = scope) ∧ store.entries.length ≤ maxEntriesPerScope ∧
    (store.entries.map deliveryKey).Nodup

theorem wellKept_of_timely {calls : List Call} (hhash : HashesApart env calls)
    (hrun : Trace.Along (Call.runDurable env)
      (fun files call => Timely env (written env files call.scope) call) (fun _ => none) calls)
    {call : Call} (hcall : call ∈ calls) :
    WellKept env (Trace.final (Call.runDurable env) (fun _ => none) calls) call.scope := by
  have hsound : FilesSound env calls (Trace.final (Call.runDurable env) (fun _ => none) calls) :=
    Trace.invariant (fun files c hc h => h.runDurable hhash hc.2 hc.1)
      (hrun.and (Trace.along_of_forall fun _ hc => hc)) nofun
  intro _
  obtain ⟨entries, hload, -, h⟩ := sound_start fun _ hfile => hsound.file hhash hcall hfile
  exact ⟨_, hload, h.inScope, h.bounded, h.distinct⟩

/-! ## Refused calls -/

/-- A retry whose resend failed: its letter counts one attempt more, at the time of the retry. -/
def FailedResend (env : Env) (call : Call) (before after : List DeadLetter) : Prop :=
  ∃ scope id error now position, call = .retry scope id (some error) now ∧
    (before.findIdx? fun letter => letter.id = id) = some position ∧
    after = before.modify position (failRetry env now)

/-- A letter that is new to the queue is small enough for a store of its own. -/
def Fits (entries : List DeadLetter) : Call → Prop
  | .enqueue letter => (entries.find? fun e => SameDelivery letter e) = none →
      storeSize [letter] ≤ maxStoreBytes
  | _ => True

theorem shrink_fits {entries : List DeadLetter} {letter : DeadLetter}
    (h : storeSize [letter] ≤ maxStoreBytes) : (shrink (entries ++ [letter])).2 = .ok () := by
  induction entries with
  | nil => rw [List.nil_append, shrink, if_neg (not_lt.mpr h)]
  | cons e rest ih =>
    obtain ⟨next, more, hmore⟩ : ∃ next more, rest ++ [letter] = next :: more := by
      cases rest with
      | nil => exact ⟨_, _, rfl⟩
      | cons next more => exact ⟨_, _, rfl⟩
    rw [hmore] at ih
    rw [List.cons_append, hmore, shrink]
    split
    · exact ih
    · rfl

/-- An operation that fails leaves the entries. -/
theorem operation_error {entries after : List DeadLetter} {call : Call} {e : OclaError}
    (hop : call.operation env entries = (after, .error e)) (hfits : Fits entries call) :
    after = entries := by
  cases call with
  | enqueue letter =>
    revert hop
    dsimp only [Call.operation, enqueueEntries]
    cases hfind : entries.findIdx? fun entry => SameDelivery letter entry with
    | some position => exact fun hop => nomatch (Prod.mk.inj hop).2
    | none =>
      have hnone : (entries.find? fun e => SameDelivery letter e) = none := by
        rw [List.find?_eq_bind_findIdx?_getElem?, hfind]
        rfl
      intro hop
      have hresult := (Prod.mk.inj hop).2
      rw [shrink_fits (hfits hnone)] at hresult
      cases hresult
  | dequeue scope id =>
    revert hop
    dsimp only [Call.operation, dequeueEntries]
    split
    · exact fun hop => nomatch (Prod.mk.inj hop).2
    · exact fun hop => nomatch (Prod.mk.inj hop).2
  | retry scope id resend now =>
    revert hop
    dsimp only [Call.operation, retryEntries]
    split
    · exact fun hop => (Prod.mk.inj hop).1.symm
    · split
      · exact fun hop => (Prod.mk.inj hop).1.symm
      · cases resend with
        | none => exact fun hop => nomatch (Prod.mk.inj hop).2
        | some error => exact fun hop => nomatch (Prod.mk.inj hop).2

/-- Only a failed resend is done and still told as an error. -/
theorem failedResend_of_done {entries after : List DeadLetter} {call : Call} {e : OclaError}
    (hop : call.operation env entries = (after, .ok (.error e))) :
    FailedResend env call entries after := by
  cases call with
  | enqueue letter =>
    dsimp only [Call.operation] at hop
    cases hresult : (enqueueEntries letter entries).2 with
    | error e' =>
      rw [hresult] at hop
      cases (Prod.mk.inj hop).2
    | ok u =>
      rw [hresult] at hop
      cases (Prod.mk.inj hop).2
  | dequeue scope id =>
    dsimp only [Call.operation] at hop
    cases hresult : (dequeueEntries scope id entries).2 with
    | error e' =>
      rw [hresult] at hop
      cases (Prod.mk.inj hop).2
    | ok letter =>
      rw [hresult] at hop
      cases (Prod.mk.inj hop).2
  | retry scope id resend now =>
    revert hop
    dsimp only [Call.operation, retryEntries]
    cases hfind : entries.findIdx? fun letter => letter.id = id with
    | none => exact fun hop => nomatch (Prod.mk.inj hop).2
    | some position =>
      dsimp only
      split
      · exact fun hop => nomatch (Prod.mk.inj hop).2
      · cases resend with
        | none => exact fun hop => nomatch (Prod.mk.inj hop).2
        | some error =>
          intro hop
          exact ⟨scope, id, error, now, position, rfl, hfind, (Prod.mk.inj hop).1.symm⟩

theorem runMemory_error {entries : List DeadLetter} {call : Call} {e : OclaError}
    (h : (call.runMemory env entries).1 = .error e) (hfits : Fits entries call) :
    (call.runMemory env entries).2 = entries ∨
      FailedResend env call entries (call.runMemory env entries).2 := by
  unfold Call.runMemory at h ⊢
  cases hcheck : call.check env with
  | error e' => exact .inl rfl
  | ok u =>
    rw [hcheck] at h
    cases hop : call.operation env entries with
    | mk after result =>
      rw [hop] at h
      cases result with
      | error e' => exact .inl (operation_error hop hfits)
      | ok reply =>
        obtain rfl : reply = .error e := h
        exact .inr (failedResend_of_done hop)

theorem runDurable_error {files : Files} {call : Call} {e : OclaError}
    (h : (call.runDurable env files).1 = .error e) :
    (call.runDurable env files).2 = files ∨ ∃ store entries,
      loadStore env files call.scope = .ok store ∧ FailedResend env call store.entries entries ∧
      saveStore env files call.scope { store with entries } = .ok (call.runDurable env files).2 := by
  unfold Call.runDurable at h ⊢
  cases hcheck : call.check env with
  | error e' => exact .inl rfl
  | ok u =>
    rw [hcheck] at h
    simp only [withEntries] at h ⊢
    cases hload : loadStore env files call.scope with
    | error e' => exact .inl rfl
    | ok store =>
      rw [hload] at h
      dsimp only at h ⊢
      cases hop : call.operation env store.entries with
      | mk after result =>
        rw [hop] at h
        cases result with
        | error e' => exact .inl rfl
        | ok reply =>
          dsimp only at h ⊢
          cases hsave : saveStore env files call.scope { store with entries := after } with
          | error e' => exact .inl rfl
          | ok files' =>
            rw [hsave] at h
            obtain rfl : reply = .error e := h
            exact .inr ⟨store, after, rfl, failedResend_of_done hop, hsave⟩

/-- When no failure is recorded before the first one of its letter, the store stays loadable; and
a refused call leaves the entries, except that a letter with a store too large of its own empties
the queue in memory. -/
theorem never_locked_out (env : Env) :
    (∀ calls, HashesApart env calls →
      Trace.Along (Call.runDurable env)
        (fun files call => Timely env (written env files call.scope) call) (fun _ => none) calls →
      ∀ call ∈ calls,
        WellKept env (Trace.final (Call.runDurable env) (fun _ => none) calls) call.scope) ∧
    (∀ files call e, (Call.runDurable env files call).1 = .error e →
      (Call.runDurable env files call).2 = files ∨ ∃ store entries,
        loadStore env files call.scope = .ok store ∧ FailedResend env call store.entries entries ∧
        saveStore env files call.scope { store with entries } =
          .ok (Call.runDurable env files call).2) ∧
    ∀ entries call e, (Call.runMemory env entries call).1 = .error e → Fits entries call →
      (Call.runMemory env entries call).2 = entries ∨
        FailedResend env call entries (Call.runMemory env entries call).2 :=
  ⟨fun _ hhash hrun _ hcall => wellKept_of_timely hhash hrun hcall,
    fun _ _ _ h => runDurable_error h, fun _ _ _ h hfits => runMemory_error h hfits⟩

/-! ## A delivery that fails again -/

open Classical in
/-- The printer of stores has an inverse. -/
noncomputable def readStore (bytes : Bytes) : Option DurableDlqV1 :=
  if h : ∃ store, toVecPretty store = bytes then some h.choose else none

theorem readStore_toVecPretty (store : DurableDlqV1) :
    readStore (toVecPretty store) = some store := by
  have h : ∃ store', toVecPretty store' = toVecPretty store := ⟨store, rfl⟩
  rw [readStore, dif_pos h, toVecPretty_inj h.choose_spec]

def eight : String := "2026-01-01T08:00:00+00:00"

def nine : String := "2026-01-01T09:00:00+00:00"

def ten : String := "2026-01-01T10:00:00+00:00"

/-- One morning, in seconds, and one tenant with one project. -/
noncomputable def oneMorning : Env where
  parseTime text :=
    if text = eight then some 1767254400
    else if text = nine then some 1767258000
    else if text = ten then some 1767261600
    else none
  toRfc3339 now := if now = 1767261600 then ten else ""
  parseUrl _ := none
  fromSlice := readStore
  fromSlice_toVecPretty := readStore_toVecPretty
  blake3Hex _ := "c54185138069a71fc7ccc9126a34fea552a830d07cdaf9ac317e9cca05029646"

def project : DlqScope := ⟨"tenant", "project"⟩

/-- A delivery that failed once. -/
def failedAt (id time : String) : DeadLetter where
  id := id
  peerId := "peer-a"
  deliveryId := "delivery-1"
  tenantId := "tenant"
  projectId := "project"
  delivery := .localAgentBus
  originalMessage := "run the tests"
  targetAgent := "agent-b"
  error := "connection refused"
  attempts := 1
  firstFailedAt := time
  lastFailedAt := time

noncomputable def savedAs (entries : List DeadLetter) : Files :=
  Function.update (fun _ => none) (scopeStorePath oneMorning project)
    (some (toVecPretty ⟨storeVersion, entries⟩))

theorem written_savedAs (entries : List DeadLetter) :
    written oneMorning (savedAs entries) project = entries := by
  simp only [written, savedAs, Function.update_self, Option.bind_some,
    Env.fromSlice_toVecPretty]

theorem runDurable_savedAs {files : Files} {entries after : List DeadLetter} {call : Call}
    {reply : Reply} (hfiles : ∀ path ≠ scopeStorePath oneMorning project, files path = none)
    (hscope : call.scope = project) (hcheck : call.check oneMorning = .ok ())
    (hload : loadStore oneMorning files project = .ok ⟨storeVersion, entries⟩)
    (hop : call.operation oneMorning entries = (after, .ok reply))
    (hsize : (toVecPretty ⟨storeVersion, after⟩).length ≤ maxStoreBytes) :
    call.runDurable oneMorning files = (reply, savedAs after) := by
  have hsave : saveStore oneMorning files project ⟨storeVersion, after⟩ = .ok (savedAs after) := by
    simp only [saveStore]
    rw [if_neg (not_lt.mpr hsize), savedAs]
    congr 1
    funext path
    by_cases hpath : path = scopeStorePath oneMorning project
    · rw [hpath, Function.update_self, Function.update_self]
    · rw [Function.update_of_ne hpath, Function.update_of_ne hpath, hfiles path hpath]
  simp only [Call.runDurable, hcheck, withEntries, hscope, hload, hop, hsave]
  rfl

theorem savedAs_of_ne {entries : List DeadLetter} :
    ∀ path ≠ scopeStorePath oneMorning project, savedAs entries path = none :=
  fun _ hpath => Function.update_of_ne hpath _ _

theorem valid_failedAt {id time : String} (hid : validateIdentifier "id" id = .ok ())
    (htime : time = eight ∨ time = nine) : (failedAt id time).validate oneMorning = .ok () := by
  have hpeer : validateIdentifier "peer_id" "peer-a" = .ok () := by decide
  have hdelivery : validateIdentifier "delivery_id" "delivery-1" = .ok () := by decide
  have hscope : project.validate = .ok () := by decide
  have htarget : validateIdentifier "target_agent" "agent-b" = .ok () := by decide
  have hmessage : "run the tests" ≠ "" ∧ "run the tests".utf8ByteSize ≤ maxMessageBytes := by decide
  have herror : "connection refused" ≠ "" ∧ "connection refused".utf8ByteSize ≤ maxErrorBytes := by
    decide
  have hattempts : (1 : UInt8) ≠ 0 := by decide
  refine validate_eq_ok.mpr ⟨⟨hid, hpeer, hdelivery, hscope, htarget, hmessage, rfl⟩,
    herror, hattempts, ?_⟩
  rcases htime with rfl | rfl
  · exact ⟨_, _, rfl, rfl, le_rfl⟩
  · exact ⟨_, _, rfl, rfl, le_rfl⟩

theorem sound_failedAt {letter : DeadLetter} (hvalid : letter.validate oneMorning = .ok ())
    (hscope : letter.scope = project) : Sound oneMorning project [letter] :=
  (@Sound.nil oneMorning project).concat hvalid hscope (by decide) List.not_mem_nil

/-- The first failure of a delivery. -/
theorem runDurable_first {id time : String} (hid : validateIdentifier "id" id = .ok ())
    (htime : time = eight ∨ time = nine)
    (hsize : (toVecPretty ⟨storeVersion, [failedAt id time]⟩).length ≤ maxStoreBytes) :
    (Call.enqueue (failedAt id time)).runDurable oneMorning (fun _ => none) =
      (.done, savedAs [failedAt id time]) := by
  refine runDurable_savedAs (fun _ _ => rfl) rfl (valid_failedAt hid htime) rfl ?_ hsize
  have hshrink : shrink [failedAt id time] = ([failedAt id time], .ok ()) := by
    rw [shrink, storeSize, if_neg (not_lt.mpr hsize)]
  have hroom : ¬ maxEntriesPerScope ≤ 0 := by decide
  simp [Call.operation, enqueueEntries, hroom, hshrink]
  rfl


/-- The delivery fails again. -/
theorem runDurable_again {id id' time time' : String}
    (hid : validateIdentifier "id" id = .ok ()) (hid' : validateIdentifier "id" id' = .ok ())
    (htime : time = eight ∨ time = nine) (htime' : time' = eight ∨ time' = nine)
    (hsize : (toVecPretty ⟨storeVersion, [failedAt id time]⟩).length ≤ maxStoreBytes)
    (hsize' : (toVecPretty ⟨storeVersion,
      [mergeFailure (failedAt id' time') (failedAt id time)]⟩).length ≤ maxStoreBytes) :
    (Call.enqueue (failedAt id' time')).runDurable oneMorning (savedAs [failedAt id time]) =
      (.done, savedAs [mergeFailure (failedAt id' time') (failedAt id time)]) := by
  refine runDurable_savedAs savedAs_of_ne rfl (valid_failedAt hid' htime')
    (loadStore_eq_ok (Function.update_self _ _ _) hsize (sound_failedAt (valid_failedAt hid htime) rfl))
    ?_ hsize'
  have hsame : SameDelivery (failedAt id' time') (failedAt id time) := ⟨rfl, rfl, rfl⟩
  simp [Call.operation, enqueueEntries, List.findIdx?_cons, hsame]
  rfl

/-- A second failure an hour later, and a third on the retry. -/
def failures : List Call :=
  [.enqueue (failedAt "dl-1" eight), .enqueue (failedAt "dl-2" nine),
    .retry project "dl-1" (some "agent-b is gone") 1767261600]

theorem runDurable_failures :
    (Call.enqueue (failedAt "dl-1" eight)).runDurable oneMorning (fun _ => none) =
      (.done, savedAs [failedAt "dl-1" eight]) ∧
    (Call.enqueue (failedAt "dl-2" nine)).runDurable oneMorning (savedAs [failedAt "dl-1" eight]) =
      (.done, savedAs [mergeFailure (failedAt "dl-2" nine) (failedAt "dl-1" eight)]) := by
  have hsize : (toVecPretty ⟨storeVersion, [failedAt "dl-1" eight]⟩).length ≤ maxStoreBytes := by
    rw [toVecPretty_eq]
    decide +kernel
  have hsize' : (toVecPretty ⟨storeVersion,
      [mergeFailure (failedAt "dl-2" nine) (failedAt "dl-1" eight)]⟩).length ≤ maxStoreBytes := by
    rw [toVecPretty_eq]
    decide +kernel
  exact ⟨runDurable_first (by decide) (.inl rfl) hsize,
    runDurable_again (by decide) (by decide) (.inl rfl) (.inr rfl) hsize hsize'⟩

theorem timely_failures : Trace.Along (Call.runDurable oneMorning)
    (fun files call => Timely oneMorning (written oneMorning files call.scope) call)
    (fun _ => none) failures := by
  obtain ⟨hfirst, hagain⟩ := runDurable_failures
  refine ⟨nofun, ?_, ?_, trivial⟩
  · rw [hfirst]
    intro existing hfound
    change (written oneMorning (savedAs _) project).find? _ = _ at hfound
    rw [written_savedAs] at hfound
    obtain rfl := List.mem_singleton.mp (List.mem_of_find?_eq_some hfound)
    exact ⟨_, _, rfl, rfl, by decide⟩
  · rw [hfirst, hagain]
    intro letter hfound _
    change (written oneMorning (savedAs _) project).find? _ = _ at hfound
    rw [written_savedAs] at hfound
    obtain rfl := List.mem_singleton.mp (List.mem_of_find?_eq_some hfound)
    exact ⟨_, _, rfl, rfl, by decide⟩

theorem never_locked_out_failures :
    WellKept oneMorning (Trace.final (Call.runDurable oneMorning) (fun _ => none) failures)
      project ∧
    ((Call.retry project "dl-9" none 0).runDurable oneMorning (fun _ => none)).2 =
      (fun _ => none) ∧
    ((Call.retry project "dl-9" none 0).runMemory oneMorning [failedAt "dl-1" eight]).2 =
      [failedAt "dl-1" eight] := by
  have hscope : ∀ c ∈ failures, c.scope = project := by decide
  have hcheck : (Call.retry project "dl-9" none 0).check oneMorning = .ok () := by
    refine andThen_eq_ok.mpr ⟨?_, ?_⟩
    · decide
    · decide
  refine ⟨?_, ?_, ?_⟩
  · refine (never_locked_out oneMorning).1 failures (fun c hc d hd _ => ?_) timely_failures
      (.enqueue (failedAt "dl-1" eight)) List.mem_cons_self
    rw [hscope c hc, hscope d hd]
  · have hreply : ((Call.retry project "dl-9" none 0).runDurable oneMorning (fun _ => none)).1 =
        .error "dead letter not found: dl-9" := by
      simp only [Call.runDurable, hcheck]
      rfl
    rcases (never_locked_out oneMorning).2.1 _ _ _ hreply with
      h | ⟨store, entries, -, ⟨_, _, _, _, _, hcall, -⟩, -⟩
    · exact h
    · cases hcall
  · have hreply :
        ((Call.retry project "dl-9" none 0).runMemory oneMorning [failedAt "dl-1" eight]).1 =
          .error "dead letter not found: dl-9" := by
      have hmissing : (failedAt "dl-1" eight).id ≠ "dl-9" := by decide
      simp [Call.runMemory, hcheck, Call.operation, retryEntries, List.findIdx?_cons, hmissing]
      rfl
    rcases (never_locked_out oneMorning).2.2 _ _ _ hreply trivial with h | ⟨_, _, _, _, _, hcall, -⟩
    · exact h
    · cases hcall

/-- The second failure is reported with an earlier time: the file is written, and not loaded
again. -/
theorem earlier_failure_locks_out :
    ¬ WellKept oneMorning (Trace.final (Call.runDurable oneMorning) (fun _ => none)
      [.enqueue (failedAt "dl-1" nine), .enqueue (failedAt "dl-2" eight)]) project := by
  have hsize : (toVecPretty ⟨storeVersion, [failedAt "dl-1" nine]⟩).length ≤ maxStoreBytes := by
    rw [toVecPretty_eq]
    decide +kernel
  have hsize' : (toVecPretty ⟨storeVersion,
      [mergeFailure (failedAt "dl-2" eight) (failedAt "dl-1" nine)]⟩).length ≤ maxStoreBytes := by
    rw [toVecPretty_eq]
    decide +kernel
  rw [Trace.final, runDurable_first (by decide) (.inr rfl) hsize, Trace.final,
    runDurable_again (by decide) (by decide) (.inr rfl) (.inl rfl) hsize hsize', Trace.final]
  intro h
  obtain ⟨store, hload, -⟩ := h (by simp [savedAs])
  have hinvalid : (mergeFailure (failedAt "dl-2" eight) (failedAt "dl-1" nine)).validate oneMorning ≠
      .ok () := by
    intro hvalid
    obtain ⟨first, last, hfirst, hlast, hle⟩ := (validate_eq_ok.mp hvalid).2.times
    obtain rfl : (1767258000 : ℤ) = first := Option.some.inj hfirst
    obtain rfl : (1767254400 : ℤ) = last := Option.some.inj hlast
    exact absurd hle (by decide)
  cases hresult : (mergeFailure (failedAt "dl-2" eight) (failedAt "dl-1" nine)).validate
    oneMorning with
  | ok u => exact hinvalid hresult
  | error e =>
    have hcheck : checkEntry oneMorning project
        (mergeFailure (failedAt "dl-2" eight) (failedAt "dl-1" nine)) = .error e := by
      have hsame : upgradeEntry (mergeFailure (failedAt "dl-2" eight) (failedAt "dl-1" nine)) =
          mergeFailure (failedAt "dl-2" eight) (failedAt "dl-1" nine) := by decide
      simp only [checkEntry, hsame, hresult]
      rfl
    simp only [loadStore, savedAs, Function.update_self, if_neg (not_lt.mpr hsize'),
      Env.fromSlice_toVecPretty, List.mapM_cons, hcheck] at hload
    cases hload

end LeanCtx.DeadLetters
