import LeanCtx.AuditCheckpoint

/-!
# Resumed verification gives the verdict of a full pass

The pass over a stream is a fold over its lines, so a stream that ends on a line
boundary can be cut there. A checkpoint is sound for a file when it holds the
state of the pass over the prefix it describes, and a sound checkpoint changes
nothing about a verdict. Every checkpoint that a pass saves is sound, and stays
so as long as the prefix and the files before it stay what they are.
-/

namespace LeanCtx.Audit

open ByteText

variable {env : Env} {keeper : Keeper}

/-! ## Streams -/

namespace ChainState

theorem verifyLines_append (state : ChainState) (lines rest : List Bytes) :
    state.verifyLines env (lines ++ rest) =
      match state.verifyLines env lines with
      | (next, true) => next.verifyLines env rest
      | (next, false) => (next, false) := by
  induction lines generalizing state with
  | nil => rfl
  | cons line lines ih =>
    rw [List.cons_append, verifyLines, verifyLines]
    obtain ⟨next, ok⟩ := state.verifyLine env line
    cases ok with
    | false => rfl
    | true => exact ih next

theorem linesOf_append {bytes : Bytes} (h : (splitLines bytes).2 = []) (rest : Bytes) :
    linesOf (bytes ++ rest) = linesOf bytes ++ linesOf rest ∧
      (splitLines (bytes ++ rest)).2 = (splitLines rest).2 := by
  have hsplit := splitLines_append h rest
  refine ⟨?_, by rw [hsplit]⟩
  rw [linesOf, hsplit, linesOf, if_pos h, List.append_nil, linesOf, List.map_append,
    List.append_assoc]

/-- A stream may be cut at a line boundary. -/
theorem verifyStream_append {state next : ChainState} {bytes : Bytes} {n : ℕ}
    (h : state.verifyStream env bytes = (next, some (n, true))) (rest : Bytes) :
    state.verifyStream env (bytes ++ rest) =
      ((next.verifyStream env rest).1,
        (next.verifyStream env rest).2.map fun (m, clean) => (bytes.length + m, clean)) := by
  unfold verifyStream at h
  cases hlines : state.verifyLines env (linesOf bytes) with
  | mk after ok =>
    rw [hlines] at h
    cases ok with
    | false => cases h
    | true =>
      simp only [Prod.mk.injEq, Option.some.injEq, decide_eq_true_eq] at h
      obtain ⟨rfl, -, hend⟩ := h
      obtain ⟨happend, htail⟩ := linesOf_append hend rest
      unfold verifyStream
      rw [happend, verifyLines_append, hlines, htail]
      dsimp only
      cases hrest : after.verifyLines env (linesOf rest) with
      | mk last ok => cases ok <;> simp

end ChainState

/-! ## Files -/

/-- The checkpoint is of this file, which still has all the bytes it covers. -/
def Covers (payload : Payload) (file : TrailFile) : Prop :=
  payload.stamp.dev = file.dev ∧ payload.stamp.ino = file.ino ∧
    payload.stamp.size ≤ file.bytes.length

variable (env) in
/-- The state is the one after the first `n` bytes, which end on a line boundary. -/
def StateAfter (start : ChainState) (file : TrailFile) (n : ℕ) (state : ChainState) : Prop :=
  start.verifyStream env (file.bytes.take n) = (state, some (n, true))

variable (env keeper) in
def Sound (checkpoints : Checkpoints) (trail : String) (file : TrailFile) (start : ChainState) :
    Prop :=
  ∀ payload, stored keeper checkpoints trail = some payload → Covers payload file →
    StateAfter env start file payload.stamp.size payload.state

variable (env) in
/-- The verdict on one file, read from its start. -/
def passFile (start : ChainState) (file : TrailFile) : Verified :=
  if ¬ file.available then .unavailable
  else match start.verifyStream env file.bytes with
    | (state, none) => .invalid state
    | (state, some _) => .valid state

theorem passFile_of_available {file : TrailFile} (h : file.available = true)
    (start : ChainState) :
    passFile env start file =
      match start.verifyStream env file.bytes with
      | (state, none) => .invalid state
      | (state, some _) => .valid state :=
  if_neg (by simp [h])

theorem size_of_stamp {file : TrailFile} {stamp : FileStamp} (h : file.stamp = some stamp) :
    stamp.size = file.bytes.length ∧ stamp.dev = file.dev ∧ stamp.ino = file.ino := by
  obtain ⟨time, -, rfl⟩ := Option.map_eq_some_iff.mp h
  exact ⟨rfl, rfl, rfl⟩

theorem covers_of_resume {checkpoints : Checkpoints} {trail : String} {file : TrailFile}
    {stamp : FileStamp} {start : ChainState} {maxAge : Option ℤ} {now : ℤ} {payload : Payload}
    (hstamp : file.stamp = some stamp)
    (h : resume env keeper checkpoints trail file stamp start maxAge now = some payload) :
    stored keeper checkpoints trail = some payload ∧ Covers payload file := by
  obtain ⟨hsize, hdev, hino⟩ := size_of_stamp hstamp
  unfold resume at h
  obtain ⟨found, hfound, h⟩ := Option.bind_eq_some_iff.mp h
  dsimp only at h
  split_ifs at h
  obtain rfl := Option.some.inj h
  unfold authenticPrefixOf at hfound
  obtain ⟨kept, hkept, h⟩ := Option.bind_eq_some_iff.mp hfound
  dsimp only at h
  split_ifs at h with hidentity htouched
  obtain ⟨⟨head, tail⟩, -, h⟩ := Option.bind_eq_some_iff.mp h
  dsimp only at h
  split_ifs at h
  obtain rfl := Option.some.inj h
  obtain ⟨hsame, hlong⟩ := not_or.mp hidentity
  obtain ⟨hd, hi⟩ := Prod.mk.inj (not_not.mp hsame)
  refine ⟨hkept, by rw [← hd, hdev], by rw [← hi, hino], ?_⟩
  rw [← hsize]
  exact Nat.not_lt.mp hlong

/-! ## What a pass saves -/

theorem stored_update {checkpoints : Checkpoints} {trail path : String} {contents : Option Bytes}
    {payload : Payload}
    (h : stored keeper (Function.update checkpoints (keeper.fileName trail) contents) path =
      some payload) :
    stored keeper checkpoints path = some payload ∨
      ∃ bytes, contents = some bytes ∧
        keeper.read (bytes.take maxCheckpointBytes) = some payload ∧ payload.trail = path := by
  unfold stored at h ⊢
  by_cases hname : keeper.fileName path = keeper.fileName trail
  · rw [hname, Function.update_self] at h
    obtain ⟨bytes, hbytes, h⟩ := Option.bind_eq_some_iff.mp h
    obtain ⟨found, hfound, h⟩ := Option.bind_eq_some_iff.mp h
    split_ifs at h with hbad
    obtain rfl := Option.some.inj h
    exact .inr ⟨bytes, hbytes, hfound, not_not.mp (not_or.mp hbad).2⟩
  · rw [Function.update_of_ne hname] at h
    exact .inl h

theorem stored_discard {checkpoints : Checkpoints} {trail path : String} {payload : Payload}
    (h : stored keeper (discard keeper checkpoints trail) path = some payload) :
    stored keeper checkpoints path = some payload := by
  rcases stored_update h with h | ⟨bytes, hbytes, -⟩
  · exact h
  · cases hbytes

/-- A checkpoint after a pass is an earlier one, or the state at the end of the file. -/
theorem stored_save {checkpoints : Checkpoints} {trail path : String} {file : TrailFile}
    {stamp : FileStamp} {start state : ChainState} {now : ℤ} {payload : Payload}
    (h : stored keeper (save env keeper checkpoints trail file stamp start state now) path =
      some payload) :
    stored keeper checkpoints path = some payload ∨
      path = trail ∧ payload.stamp.size = stamp.size ∧ payload.state = state := by
  unfold save at h
  split_ifs at h
  · exact .inl h
  · split at h
    · exact .inl h
    · split at h
      · exact .inl h
      · next hwrite =>
        rcases stored_update h with h | ⟨bytes, hbytes, hread, htrail⟩
        · exact .inl h
        · obtain rfl := Option.some.inj hbytes
          have hpayload := keeper.read_write _ _ hwrite _ _ hread
          rw [hpayload] at htrail ⊢
          exact .inr ⟨htrail.symm, rfl, rfl⟩

/-- What a pass over a file may do to the checkpoints. -/
def SavesFor (env : Env) (keeper : Keeper) (before after : Checkpoints) (trail : String)
    (file : TrailFile) (start : ChainState) : Prop :=
  ∀ path payload, stored keeper after path = some payload →
    stored keeper before path = some payload ∨
      path = trail ∧ StateAfter env start file payload.stamp.size payload.state

theorem SavesFor.refl (checkpoints : Checkpoints) (trail : String) (file : TrailFile)
    (start : ChainState) : SavesFor env keeper checkpoints checkpoints trail file start :=
  fun _ _ h => .inl h

theorem savesFor_save {checkpoints : Checkpoints} {trail : String} {file : TrailFile}
    {stamp : FileStamp} {start state : ChainState} {now : ℤ} (hstamp : file.stamp = some stamp)
    (hstate : start.verifyStream env file.bytes = (state, some (stamp.size, true))) :
    SavesFor env keeper checkpoints
      (save env keeper checkpoints trail file stamp start state now) trail file start := by
  intro path payload h
  rcases stored_save h with h | ⟨hpath, hsize, rfl⟩
  · exact .inl h
  · refine .inr ⟨hpath, ?_⟩
    rw [StateAfter, hsize, (size_of_stamp hstamp).1, List.take_length, hstate,
      (size_of_stamp hstamp).1]

/-- The pass over a whole file. -/
theorem verifyInFull_spec (checkpoints : Checkpoints) (trail : String) {file : TrailFile}
    (start : ChainState) (now : ℤ) (havailable : file.available = true) :
    (verifyInFull env keeper checkpoints trail file start now).1 = passFile env start file ∧
      SavesFor env keeper checkpoints
        (verifyInFull env keeper checkpoints trail file start now).2 trail file start := by
  rw [passFile_of_available havailable]
  unfold verifyInFull
  cases hstream : start.verifyStream env file.bytes with
  | mk state outcome =>
    cases outcome with
    | none =>
      refine ⟨rfl, ?_⟩
      dsimp only
      split_ifs
      · exact fun path payload h => .inl (stored_discard h)
      · exact SavesFor.refl _ _ _ _
    | some outcome =>
      obtain ⟨read, clean⟩ := outcome
      refine ⟨rfl, ?_⟩
      dsimp only
      split
      · next stamp hstamp =>
        split_ifs with hsave
        · obtain ⟨-, rfl, rfl⟩ := hsave
          exact savesFor_save hstamp hstream
        · exact SavesFor.refl _ _ _ _
      · exact SavesFor.refl _ _ _ _

/-- A pass from a sound checkpoint. -/
theorem verifyResumed_spec {checkpoints : Checkpoints} {trail : String} {file : TrailFile}
    {start : ChainState} {maxAge : Option ℤ} {now : ℤ}
    (hsound : Sound env keeper checkpoints trail file start) (havailable : file.available = true)
    {verified : Verified × Checkpoints}
    (h : verifyResumed env keeper checkpoints trail file start maxAge now = some verified) :
    verified.1 = passFile env start file ∧
      SavesFor env keeper checkpoints verified.2 trail file start := by
  unfold verifyResumed at h
  split_ifs at h
  obtain ⟨stamp, hstamp, h⟩ := Option.bind_eq_some_iff.mp h
  obtain ⟨resumed, hresumed, h⟩ := Option.bind_eq_some_iff.mp h
  dsimp only at h
  obtain ⟨hstored, hcovers⟩ := covers_of_resume hstamp hresumed
  have hfront := hsound resumed hstored hcovers
  have hsize := (size_of_stamp hstamp).1
  rw [passFile_of_available havailable]
  split_ifs at h with hwhole
  · obtain rfl := Option.some.inj h
    rw [StateAfter, hwhole, hsize, List.take_length] at hfront
    rw [hfront]
    exact ⟨rfl, SavesFor.refl _ _ _ _⟩
  · -- The stream is cut where the checkpoint ends.
    have hall := ChainState.verifyStream_append hfront (file.bytes.drop resumed.stamp.size)
    rw [List.take_append_drop, List.length_take, min_eq_left hcovers.2.2] at hall
    cases hrest : resumed.state.verifyStream env (file.bytes.drop resumed.stamp.size) with
    | mk state outcome =>
      rw [hrest] at h hall
      cases outcome with
      | none => cases h
      | some outcome =>
        obtain ⟨read, clean⟩ := outcome
        obtain rfl := Option.some.inj h
        rw [hall]
        refine ⟨rfl, ?_⟩
        dsimp only
        split_ifs with hsave
        · obtain ⟨rfl, hread⟩ := hsave
          refine savesFor_save hstamp ?_
          rw [hall, ← hread]
          rfl
        · exact SavesFor.refl _ _ _ _

theorem verifyFile_spec {checkpoints : Checkpoints} {trail : String} {file : TrailFile}
    {start : ChainState} (hsound : Sound env keeper checkpoints trail file start)
    (forceFull : Bool) (maxAge : Option ℤ) (now : ℤ) :
    (verifyFile env keeper checkpoints trail file start forceFull maxAge now).1 =
        passFile env start file ∧
      SavesFor env keeper checkpoints
        (verifyFile env keeper checkpoints trail file start forceFull maxAge now).2 trail file
        start := by
  unfold verifyFile
  split_ifs with havailable hforce
  · exact verifyInFull_spec _ _ _ _ havailable
  · split
    · next verified hverified => exact verifyResumed_spec hsound havailable hverified
    · exact verifyInFull_spec _ _ _ _ havailable
  · exact ⟨by rw [passFile, if_pos havailable], SavesFor.refl _ _ _ _⟩

/-! ## The files of a trail -/

variable (env)

/-- The state after these segments, if each verifies and ends in the seal that names it. -/
def passBefore (state : ChainState) : List (ℕ × Bytes) → Option ChainState
  | [] => some state
  | (seq, bytes) :: rest =>
    match state.verifyStream env bytes with
    | (_, none) => none
    | (next, some _) => if next.sealed = some seq then passBefore next rest else none

def passSealed (state : ChainState) : List Segment → Except Verified ChainState
  | [] => .ok state
  | segment :: rest =>
    match passFile env state segment.file with
    | .valid next =>
      if next.sealed = some segment.seq then passSealed next rest else .error (.invalid next)
    | other => .error other

/-- The verdict of a pass without checkpoints. -/
def passTrail (trail : Trail) : Verified :=
  if ¬ trail.activeOpens then .unavailable
  else if trail.sealed = [] ∧ trail.active.isNone then .missing
  else match passSealed env {} trail.sealed with
    | .error verdict => verdict
    | .ok state =>
      match trail.active with
      | some file => passFile env state file
      | none => .valid state

variable {env}

/-- What is verified of a segment. -/
def Segment.content (segment : Segment) : ℕ × Bytes := (segment.seq, segment.file.bytes)

theorem passBefore_of_valid {state next : ChainState} {segment : Segment}
    (hvalid : passFile env state segment.file = .valid next)
    (hseal : next.sealed = some segment.seq) (rest : List (ℕ × Bytes)) :
    passBefore env state (segment.content :: rest) = passBefore env next rest := by
  unfold passFile at hvalid
  split_ifs at hvalid
  rw [Segment.content, passBefore]
  cases hstream : state.verifyStream env segment.file.bytes with
  | mk after outcome =>
    rw [hstream] at hvalid
    cases outcome with
    | none => cases hvalid
    | some outcome =>
      obtain rfl := Verified.valid.inj hvalid
      exact if_pos hseal

theorem passBefore_of_passSealed {state next : ChainState} {segments : List Segment}
    (h : passSealed env state segments = .ok next) :
    passBefore env state (segments.map Segment.content) = some next := by
  induction segments generalizing state with
  | nil => rw [Except.ok.inj h]; rfl
  | cons segment rest ih =>
    rw [passSealed] at h
    cases hfile : passFile env state segment.file with
    | valid after =>
      simp only [hfile] at h
      split_ifs at h with hseal
      rw [List.map_cons, passBefore_of_valid hfile hseal]
      exact ih h
    | missing => simp [hfile] at h
    | unavailable => simp [hfile] at h
    | invalid after => simp [hfile] at h

/-- Every checkpoint of these files is sound, when the first of them starts from this state. -/
def SoundFrom (env : Env) (keeper : Keeper) (checkpoints : Checkpoints) (state : ChainState)
    (files : List Segment) : Prop :=
  ∀ (before : List Segment) (segment : Segment) (after : List Segment),
    files = before ++ segment :: after →
    ∀ start, passBefore env state (before.map Segment.content) = some start →
      Sound env keeper checkpoints segment.path segment.file start

/-- What a pass over these files may do to the checkpoints. -/
def SavesFrom (env : Env) (keeper : Keeper) (old new : Checkpoints) (state : ChainState)
    (files : List Segment) : Prop :=
  ∀ path payload, stored keeper new path = some payload →
    stored keeper old path = some payload ∨
      ∃ (before : List Segment) (segment : Segment) (after : List Segment) (start : ChainState),
        files = before ++ segment :: after ∧ path = segment.path ∧
        passBefore env state (before.map Segment.content) = some start ∧
        StateAfter env start segment.file payload.stamp.size payload.state

theorem SoundFrom.head {checkpoints : Checkpoints} {state : ChainState} {segment : Segment}
    {files : List Segment} (h : SoundFrom env keeper checkpoints state (segment :: files)) :
    Sound env keeper checkpoints segment.path segment.file state :=
  h [] segment files rfl state rfl

theorem SavesFor.from {old new : Checkpoints} {state : ChainState} {segment : Segment}
    {files : List Segment}
    (h : SavesFor env keeper old new segment.path segment.file state) :
    SavesFrom env keeper old new state (segment :: files) := by
  intro path payload hstored
  rcases h path payload hstored with hold | ⟨hpath, hstate⟩
  · exact .inl hold
  · exact .inr ⟨[], segment, files, state, rfl, hpath, rfl, hstate⟩

/-- A checkpoint saved for the first file leaves those of the others sound. -/
theorem SoundFrom.tail {old new : Checkpoints} {state next : ChainState} {segment : Segment}
    {files : List Segment} (h : SoundFrom env keeper old state (segment :: files))
    (hnodup : ((segment :: files).map Segment.path).Nodup)
    (hsaves : SavesFor env keeper old new segment.path segment.file state)
    (hvalid : passFile env state segment.file = .valid next)
    (hseal : next.sealed = some segment.seq) : SoundFrom env keeper new next files := by
  intro before other after hfiles start hstart payload hstored hcovers
  have hother : other ∈ files := by
    rw [hfiles]
    exact List.mem_append_right _ List.mem_cons_self
  rcases hsaves other.path payload hstored with hold | ⟨hpath, -⟩
  · refine h (segment :: before) other after (by rw [hfiles]; rfl) start ?_ payload hold hcovers
    rw [List.map_cons, passBefore_of_valid hvalid hseal]
    exact hstart
  · have hmem : segment.path ∈ files.map Segment.path :=
      List.mem_map.mpr ⟨other, hother, hpath⟩
    exact absurd hmem (List.nodup_cons.mp hnodup).1

theorem SavesFrom.cons {old mid new : Checkpoints} {state next : ChainState} {segment : Segment}
    {files : List Segment} (hsaves : SavesFor env keeper old mid segment.path segment.file state)
    (h : SavesFrom env keeper mid new next files)
    (hvalid : passFile env state segment.file = .valid next)
    (hseal : next.sealed = some segment.seq) :
    SavesFrom env keeper old new state (segment :: files) := by
  intro path payload hstored
  rcases h path payload hstored with hmid | ⟨before, other, after, start, hfiles, hpath, hstart, hstate⟩
  · exact hsaves.from path payload hmid
  · refine .inr ⟨segment :: before, other, after, start, by rw [hfiles]; rfl, hpath, ?_, hstate⟩
    rw [List.map_cons, passBefore_of_valid hvalid hseal]
    exact hstart

/-- The pass over the segments, with the active file to follow. -/
theorem verifySealed_spec {segments last : List Segment} {checkpoints : Checkpoints}
    {state : ChainState} (hnodup : ((segments ++ last).map Segment.path).Nodup)
    (hsound : SoundFrom env keeper checkpoints state (segments ++ last)) (forceFull : Bool)
    (sample : Option ℕ) (now : ℤ) (index : ℕ) :
    let pass := verifySealed env keeper forceFull sample now index state checkpoints segments
    pass.1 = passSealed env state segments ∧
      SavesFrom env keeper checkpoints pass.2 state (segments ++ last) ∧
      ∀ next, pass.1 = .ok next → SoundFrom env keeper pass.2 next last := by
  induction segments generalizing state checkpoints index with
  | nil =>
    refine ⟨rfl, fun path payload h => .inl h, fun next hnext => ?_⟩
    rw [← Except.ok.inj hnext]
    exact hsound
  | cons segment rest ih =>
    have hfile := verifyFile_spec hsound.head forceFull
      (if some index = sample then some fullReverifySecs else none) now
    rw [verifySealed, passSealed]
    dsimp only
    cases hrun : verifyFile env keeper checkpoints segment.path segment.file state forceFull
        (if some index = sample then some fullReverifySecs else none) now with
    | mk verdict new =>
      rw [hrun] at hfile
      obtain ⟨hverdict, hsaves⟩ := hfile
      dsimp only at hverdict
      rw [← hverdict]
      cases verdict with
      | valid next =>
        dsimp only
        split_ifs with hseal
        · obtain ⟨hpass, hsaved, hnext⟩ :=
            ih (List.nodup_cons.mp hnodup).2
              (hsound.tail hnodup hsaves hverdict.symm hseal) (index + 1)
          exact ⟨hpass, hsaved.cons hsaves hverdict.symm hseal, hnext⟩
        · exact ⟨rfl, hsaves.from, nofun⟩
      | missing => exact ⟨rfl, hsaves.from, nofun⟩
      | unavailable => exact ⟨rfl, hsaves.from, nofun⟩
      | invalid next => exact ⟨rfl, hsaves.from, nofun⟩

/-- The files of the trail in chain order; the active file has no number. -/
def Trail.files (trail : Trail) : List Segment :=
  trail.sealed ++ (trail.active.map fun file => ⟨0, trail.path, file⟩).toList

theorem Trail.files_nodup (trail : Trail) : (trail.files.map Segment.path).Nodup := by
  refine trail.paths_nodup.sublist ?_
  rw [Trail.files, List.map_append]
  refine List.Sublist.append_left ?_ _
  cases trail.active with
  | none => exact List.nil_sublist _
  | some file => exact List.Sublist.refl _

/-- A pass from sound checkpoints. -/
theorem verifyStateAt_spec {trail : Trail} {checkpoints : Checkpoints}
    (hsound : SoundFrom env keeper checkpoints {} trail.files) (forceFull : Bool) (now : ℤ) :
    (verifyStateAt env keeper trail checkpoints forceFull now).1 = passTrail env trail ∧
      SavesFrom env keeper checkpoints
        (verifyStateAt env keeper trail checkpoints forceFull now).2 {} trail.files := by
  obtain ⟨hpass, hsaves, hnext⟩ := verifySealed_spec trail.files_nodup hsound forceFull
    (sampleOf now trail.sealed.length) now 0
  unfold verifyStateAt passTrail
  split_ifs with hopens hmissing
  · exact ⟨rfl, fun path payload h => .inl h⟩
  · rw [← hpass]
    cases hrun : verifySealed env keeper forceFull (sampleOf now trail.sealed.length) now 0 {}
        checkpoints trail.sealed with
    | mk outcome new =>
      rw [hrun] at hpass hsaves hnext
      dsimp only at hpass hsaves hnext ⊢
      cases outcome with
      | error verdict => exact ⟨rfl, hsaves⟩
      | ok state =>
        dsimp only
        cases hactive : trail.active with
        | none => exact ⟨rfl, hsaves⟩
        | some file =>
          have hlast := hnext state rfl
          rw [hactive] at hlast
          obtain ⟨hverdict, hsaved⟩ := verifyFile_spec hlast.head forceFull
            (some fullReverifySecs) now
          refine ⟨hverdict, fun path payload hstored => ?_⟩
          rcases hsaved path payload hstored with hold | ⟨hpath, hstate⟩
          · exact hsaves path payload hold
          · refine .inr ⟨trail.sealed, ⟨0, trail.path, file⟩, [], state, ?_, hpath, ?_, hstate⟩
            · rw [Trail.files, hactive]
              rfl
            · exact passBefore_of_passSealed hpass.symm
  · exact ⟨rfl, fun path payload h => .inl h⟩

/-! ## Every trail -/

theorem position_unique {files before before' after after' : List Segment}
    {segment segment' : Segment} (hnodup : (files.map Segment.path).Nodup)
    (h : files = before ++ segment :: after) (h' : files = before' ++ segment' :: after')
    (hpath : segment.path = segment'.path) : before = before' ∧ segment = segment' := by
  have hmem : segment ∈ files := by rw [h]; simp
  have hmem' : segment' ∈ files := by rw [h']; simp
  have hsame := List.inj_on_of_nodup_map hnodup hmem hmem' hpath
  subst hsame
  have hfiles : files.Nodup := hnodup.of_map _
  rw [h] at hfiles
  have hnot := (List.nodup_middle.mp hfiles).notMem
  rw [List.mem_append, not_or] at hnot
  exact ⟨((List.append_cons_inj_of_notMem hnot.1 hnot.2).mp (h.symm.trans h')).1, rfl⟩

/-- What a pass saves is sound for the files it passed over. -/
theorem SoundFrom.saved {old new : Checkpoints} {state : ChainState} {files : List Segment}
    (h : SoundFrom env keeper old state files) (hnodup : (files.map Segment.path).Nodup)
    (hsaves : SavesFrom env keeper old new state files) :
    SoundFrom env keeper new state files := by
  intro before segment after hfiles start hstart payload hstored hcovers
  rcases hsaves segment.path payload hstored with hold | ⟨before', segment', after', start',
    hfiles', hpath, hstart', hstate⟩
  · exact h before segment after hfiles start hstart payload hold hcovers
  · obtain ⟨rfl, rfl⟩ := position_unique hnodup hfiles hfiles' hpath
    rw [hstart] at hstart'
    obtain rfl := Option.some.inj hstart'
    exact hstate

/-- Wherever a stored checkpoint is of a file of the new trail, the bytes it covers and the files
before it are those of the old trail. -/
def Keeps (keeper : Keeper) (checkpoints : Checkpoints) (old new : Trail) : Prop :=
  ∀ (before : List Segment) (segment : Segment) (after : List Segment),
    new.files = before ++ segment :: after →
    ∀ payload, stored keeper checkpoints segment.path = some payload →
      Covers payload segment.file →
      ∃ (before' : List Segment) (segment' : Segment) (after' : List Segment),
        old.files = before' ++ segment' :: after' ∧
        segment'.path = segment.path ∧
        before'.map Segment.content = before.map Segment.content ∧
        Covers payload segment'.file ∧
        segment'.file.bytes.take payload.stamp.size = segment.file.bytes.take payload.stamp.size

/-- The trails and the checkpoints that passes over them leave, from a trail without
checkpoints. -/
inductive Reaches (env : Env) (keeper : Keeper) : Trail → Checkpoints → Prop
  | start (trail : Trail) : Reaches env keeper trail fun _ => none
  | pass {trail : Trail} {checkpoints : Checkpoints} (h : Reaches env keeper trail checkpoints)
      (forceFull : Bool) (now : ℤ) :
      Reaches env keeper trail (verifyStateAt env keeper trail checkpoints forceFull now).2
  | change {trail : Trail} {checkpoints : Checkpoints} (h : Reaches env keeper trail checkpoints)
      (changed : Trail) (hkeeps : Keeps keeper checkpoints trail changed) :
      Reaches env keeper changed checkpoints

theorem soundFrom_none (state : ChainState) (files : List Segment) :
    SoundFrom env keeper (fun _ => none) state files := by
  intro before segment after hfiles start hstart payload hstored
  cases hstored

theorem Reaches.sound {trail : Trail} {checkpoints : Checkpoints}
    (h : Reaches env keeper trail checkpoints) :
    SoundFrom env keeper checkpoints {} trail.files := by
  induction h with
  | start trail => exact soundFrom_none _ _
  | @pass trail checkpoints h forceFull now ih =>
    exact ih.saved trail.files_nodup (verifyStateAt_spec ih forceFull now).2
  | change h changed hkeeps ih =>
    intro before segment after hfiles start hstart payload hstored hcovers
    obtain ⟨before', segment', after', hfiles', hpath, hcontent, hcovers', hbytes⟩ :=
      hkeeps before segment after hfiles payload hstored hcovers
    have hold := ih before' segment' after' hfiles' start (by rw [hcontent]; exact hstart)
      payload (by rw [hpath]; exact hstored) hcovers'
    rw [StateAfter] at hold ⊢
    rwa [← hbytes]

/-- As long as what the checkpoints cover stays what it is, a pass that may resume from them
gives the verdict of a full pass. -/
theorem resumed_eq_full {env : Env} {keeper : Keeper} {trail : Trail} {checkpoints : Checkpoints}
    (h : Reaches env keeper trail checkpoints) (now : ℤ) :
    (verifyStateAt env keeper trail checkpoints false now).1 =
      (verifyStateAt env keeper trail checkpoints true now).1 := by
  rw [(verifyStateAt_spec h.sound false now).1, (verifyStateAt_spec h.sound true now).1]

/-! A trail of one entry, verified, to which a line is then written halfway. -/

def onlyDigest : Bytes :=
  [82, 60, 8, 98, 163, 215, 185, 114, 12, 39, 190, 95, 82, 244, 186, 43, 121, 26, 90, 41, 79, 195,
    236, 179, 168, 203, 31, 47, 149, 16, 31, 166]

noncomputable def onlyEnv : Env where
  sha256 _ := onlyDigest
  writeValue _ := "\x7b\"action\":null,\"agent_id\":\"agent\",\"event_type\":\"tool_call\"," ++
    "\"input_hash\":\"00\",\"output_tokens\":1,\"role\":\"coder\",\"tool\":\"ctx_read\"\x7d"
  readValues := readEntryLine
  publicKey := none
  verify _ _ _ := false
  sign _ := none
  readValues_text e _ := readEntryLine_text e
  verify_sign := nofun

def onlyEntry : AuditEntry :=
  ⟨"2026-08-09T12:00:00+00:00", "agent", "ctx_read", none, "00", 1, "coder", .toolCall, "genesis",
    hexEncode onlyDigest, none⟩

def onlyTrail (more : Bytes) : Trail where
  sealed := []
  path := "trail.jsonl"
  active := some ⟨utf8 onlyEntry.text ++ newline :: more, 1, 7, some (0, 0), true⟩
  activeOpens := true
  paths_nodup := by decide

/-- The checkpoint of that entry. -/
noncomputable def onlyPayload : Payload :=
  ⟨checkpointVersion, "trail.jsonl", ⟨(utf8 onlyEntry.text ++ [newline]).length, 1, 7, 0, 0⟩,
    hexEncode onlyDigest, hexEncode onlyDigest, 0, "genesis", 0,
    { prevHash := hexEncode onlyDigest, total := 1 }⟩

open Classical in
noncomputable def onlyKeeper : Keeper where
  inDataDir _ := true
  fileName trail := trail ++ ".json"
  write payload := if payload = onlyPayload then some [1] else none
  read bytes := if bytes = [1] then some onlyPayload else none
  read_write payload bytes hwrite n payload' hread := by
    split_ifs at hwrite with hpayload
    split_ifs at hread
    rw [hpayload, ← Option.some.inj hread]

noncomputable def onlySaved : Checkpoints :=
  (verifyStateAt onlyEnv onlyKeeper (onlyTrail []) (fun _ => none) true 0).2

/-- What a first pass over a trail saves. -/
noncomputable def savedAfter (trail : Trail) : Checkpoints :=
  (verifyStateAt onlyEnv onlyKeeper trail (fun _ => none) true 0).2

theorem onlySaved_eq : onlySaved = savedAfter (onlyTrail []) := rfl

theorem reaches_savedAfter (trail : Trail) :
    Reaches onlyEnv onlyKeeper trail (savedAfter trail) :=
  .pass (.start trail) true 0

theorem savesFrom_savedAfter (trail : Trail) :
    SavesFrom onlyEnv onlyKeeper (fun _ => none) (savedAfter trail) {} trail.files :=
  (verifyStateAt_spec (soundFrom_none {} trail.files) true 0).2

theorem length_of_stateAfter {env : Env} {start state : ChainState} {file : TrailFile} {n : ℕ}
    (h : StateAfter env start file n state) : n ≤ file.bytes.length := by
  unfold StateAfter ChainState.verifyStream at h
  split at h
  · have hlength : (file.bytes.take n).length = n := by
      simpa using congrArg (fun r => r.2.map Prod.fst) h
    rw [← hlength]
    exact List.length_take_le' _ _
  · cases h

/-- The half-written line is no change to what the checkpoint covers. -/
theorem onlyTrail_keeps (more : Bytes) :
    Keeps onlyKeeper onlySaved (onlyTrail []) (onlyTrail more) := by
  intro before segment after hfiles payload hstored hcovers
  have hbefore : before = [] ∧ segment = ⟨0, "trail.jsonl",
      ⟨utf8 onlyEntry.text ++ newline :: more, 1, 7, some (0, 0), true⟩⟩ := by
    cases before with
    | nil => exact ⟨rfl, (List.cons.inj hfiles).1.symm⟩
    | cons x before => cases before <;> cases hfiles
  obtain ⟨rfl, rfl⟩ := hbefore
  refine ⟨[], ⟨0, "trail.jsonl", ⟨utf8 onlyEntry.text ++ [newline], 1, 7, some (0, 0), true⟩⟩, [],
    rfl, rfl, rfl, ?_⟩
  rw [onlySaved_eq] at hstored
  rcases savesFrom_savedAfter (onlyTrail []) _ _ hstored with
    hold | ⟨before', segment', after', start, hfiles', -, -, hstate⟩
  · cases hold
  have hlength := length_of_stateAfter hstate
  have hsegment : segment' = ⟨0, "trail.jsonl",
      ⟨utf8 onlyEntry.text ++ [newline], 1, 7, some (0, 0), true⟩⟩ := by
    cases before' with
    | nil => exact (List.cons.inj hfiles').1.symm
    | cons x before' => cases before' <;> cases hfiles'
  rw [hsegment] at hlength
  refine ⟨⟨hcovers.1, hcovers.2.1, hlength⟩, ?_⟩
  have hmore : utf8 onlyEntry.text ++ newline :: more =
      (utf8 onlyEntry.text ++ [newline]) ++ more := by simp
  rw [hmore, List.take_append_of_le_length hlength]

theorem resumed_eq_full_half_line :
    Reaches onlyEnv onlyKeeper (onlyTrail [123]) onlySaved ∧
      (verifyStateAt onlyEnv onlyKeeper (onlyTrail [123]) onlySaved false 60).1 =
        (verifyStateAt onlyEnv onlyKeeper (onlyTrail [123]) onlySaved true 60).1 := by
  have hsaved : Reaches onlyEnv onlyKeeper (onlyTrail []) onlySaved := by
    rw [onlySaved_eq]
    exact reaches_savedAfter (onlyTrail [])
  have hreaches : Reaches onlyEnv onlyKeeper (onlyTrail [123]) onlySaved :=
    .change hsaved _ (onlyTrail_keeps [123])
  exact ⟨hreaches, resumed_eq_full hreaches 60⟩

end LeanCtx.Audit
