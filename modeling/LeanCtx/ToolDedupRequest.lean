import LeanCtx.ToolDedupRebuilt

/-!
# A request after deduplication

What a stub names is an output the step has kept, so it is still in the
request; the walk over the messages hands the step the outputs in order and
puts back nothing but its answers. A replaced output is rebuilt from an earlier
one of the same request.
-/

namespace LeanCtx.ToolDedup

/-! ## Runs of the step -/

/-- `answer` tells how `content` is made of the canonical output it names. -/
def Rebuilds (canonical : Canonical) (content answer : String) : Prop :=
  answer = exactStub canonical.id ∧ content = canonical.content ∨
  ∃ delta : Delta, (delta.text canonical.id = some answer ∧ ∀ l ∈ delta.inserted, '\n' ∉ l.toList) ∧
    delta.apply canonical.content = content ∧
    ∀ other : Delta, other.text canonical.id = some answer →
      (∀ l ∈ other.inserted, '\n' ∉ l.toList) → other = delta

/-- An output that stays, in a log. -/
def Canonical.entry (canonical : Canonical) : Output × String :=
  ((some canonical.id, canonical.content), canonical.content)

/-- An output stays, or it is old and its shorter stub names an earlier one that stays. -/
def Replaced (chunkCount : ℕ) (earlier : List (Output × String)) (entry : Output × String) : Prop :=
  entry.2 = entry.1.2 ∨
    earlier.length + recentToolOutputs < chunkCount ∧
    estimateTokens entry.2 < estimateTokens entry.1.2 ∧
    ∃ canonical : Canonical, canonical.entry ∈ earlier ∧ Rebuilds canonical entry.1.2 entry.2

section Run

variable {H : Type} [DecidableEq H] {hash : String → H} {protect : Bool} {chunkCount : ℕ}

/-- All a step can do: the output stays, or one of the two stubs takes its place. -/
theorem step_cases {s s' : Dedup H} {output : Output} {answer : String}
    (h : step hash protect chunkCount s output = (answer, s')) :
    answer = output.2 ∧ s' = { s with chunkIndex := s.chunkIndex + 1 }.keep hash output ∨
    (s'.byHash = s.byHash ∧ s'.window = s.window ∧ s'.chunkIndex = s.chunkIndex + 1) ∧
      s.chunkIndex + recentToolOutputs < chunkCount ∧
      ((∃ id, s.byHash.lookup (hash output.2) = some id ∧ answer = exactStub id ∧
          estimateTokens answer < estimateTokens output.2) ∨
        bestDeltaStub s.window output.2 = some answer) := by
  unfold step at h
  dsimp only at h
  split at h
  · rename_i stub hrecent hexact
    cases h
    obtain ⟨hlookup, htokens⟩ := Option.filter_eq_some_iff.mp hexact
    obtain ⟨id, hid, rfl⟩ := Option.map_eq_some_iff.mp hlookup
    have hshorter : estimateTokens (exactStub id) < estimateTokens output.2 := by
      simpa using htokens
    exact .inr ⟨⟨rfl, rfl, rfl⟩, by simpa using hrecent, .inl ⟨id, hid, rfl, hshorter⟩⟩
  · rename_i stub hrecent hexact hbest
    split_ifs at h
    · cases h
      exact .inl ⟨rfl, rfl⟩
    · cases h
      exact .inr ⟨⟨rfl, rfl, rfl⟩, by simpa using hrecent, .inr hbest⟩
  · cases h
    exact .inl ⟨rfl, rfl⟩

theorem keep_chunkIndex (s : Dedup H) (output : Output) :
    (s.keep hash output).chunkIndex = s.chunkIndex := by
  obtain ⟨id | id, content⟩ := output
  · rfl
  · rfl

/-- What is kept was kept before, or is the output under its id. -/
theorem mem_keep_byHash {s : Dedup H} {output : Output} {e : H × String}
    (he : e ∈ (s.keep hash output).byHash) :
    e ∈ s.byHash ∨ e.1 = hash output.2 ∧ output.1 = some e.2 := by
  obtain ⟨id | id, content⟩ := output
  · exact .inl he
  · simp only [Dedup.keep] at he
    split_ifs at he
    · exact .inl he
    · obtain rfl | he := List.mem_cons.mp he
      · exact .inr ⟨rfl, rfl⟩
      · exact .inl he

theorem mem_keep_window {s : Dedup H} {output : Output} {c : Canonical}
    (hc : c ∈ (s.keep hash output).window) : c ∈ s.window ∨ output = (some c.id, c.content) := by
  obtain ⟨id | id, content⟩ := output
  · exact .inl hc
  · simp only [Dedup.keep] at hc
    obtain hc | hc := List.mem_append.mp hc
    · refine .inl ?_
      split_ifs at hc
      · exact List.mem_of_mem_tail hc
      · exact hc
    · obtain rfl := List.mem_singleton.mp hc
      exact .inr rfl

theorem estimateTokens_text_pos {id stub : String} {delta : Delta} (h : delta.text id = some stub) :
    0 < estimateTokens stub := by
  have hne : stub ≠ "" := by
    rintro rfl
    have hchars := (toList_text h).1
    exact List.cons_ne_nil _ _ hchars.symm
  have hsize : stub.utf8ByteSize ≠ 0 := fun hzero => hne (String.utf8ByteSize_eq_zero_iff.mp hzero)
  rw [estimateTokens]
  omega

/-- The best delta stub is one against a canonical output of the window, and it is shorter. -/
theorem bestDeltaStub_spec {window : List Canonical} {content stub : String}
    (h : bestDeltaStub window content = some stub) :
    estimateTokens stub < estimateTokens content ∧
      ∃ canonical ∈ window, Rebuilds canonical content stub := by
  have hmem := List.argmin_mem h
  obtain ⟨hstub, hbudget⟩ := List.mem_filter.mp hmem
  obtain ⟨canonical, hcanonical, hdelta⟩ := List.mem_filterMap.mp hstub
  obtain ⟨delta, htext, hinserted, happly⟩ := deltaStub_spec hdelta
  refine ⟨?_, canonical, hcanonical, .inr ⟨delta, ⟨htext, hinserted⟩, happly, ?_⟩⟩
  · have hpos := estimateTokens_text_pos htext
    have hhalf : estimateTokens stub ≤ estimateTokens content / 2 := of_decide_eq_true hbudget
    omega
  · exact fun other hother hlines => text_inj hother htext hlines hinserted

/-- What the state refers to is in the log and stays, and all replaced outputs are rebuilt. -/
structure Sound (hash : String → H) (contents : Set String) (chunkCount : ℕ)
    (log : List (Output × String)) (s : Dedup H) : Prop where
  chunkIndex : s.chunkIndex = log.length
  byHash : ∀ e ∈ s.byHash, ∃ content ∈ contents, e.1 = hash content ∧
    (Canonical.mk e.2 content).entry ∈ log
  window : ∀ c ∈ s.window, c.entry ∈ log
  replaced : ∀ i entry, log[i]? = some entry → Replaced chunkCount (log.take i) entry

theorem Sound.after_step {contents : Set String} (hinj : Set.InjOn hash contents)
    (log : List (Output × String)) (s : Dedup H) (output : Output) (hcontent : output.2 ∈ contents)
    (hs : Sound hash contents chunkCount log s) :
    Sound hash contents chunkCount
      (log ++ [(output, (step hash protect chunkCount s output).1)])
      (step hash protect chunkCount s output).2 := by
  obtain ⟨answer, s', hstep⟩ : ∃ answer s', step hash protect chunkCount s output = (answer, s') :=
    ⟨_, _, rfl⟩
  rw [hstep]
  have hearlier : ∀ {e}, e ∈ log → e ∈ log ++ [(output, answer)] := List.mem_append_left _
  have hlast : Replaced chunkCount log (output, answer) → ∀ i entry,
      (log ++ [(output, answer)])[i]? = some entry →
      Replaced chunkCount ((log ++ [(output, answer)]).take i) entry := by
    intro hnew i entry hentry
    obtain hi | hi := Nat.lt_or_ge i log.length
    · rw [List.getElem?_append_left hi] at hentry
      rw [List.take_append_of_le_length hi.le]
      exact hs.replaced i entry hentry
    · have hlen : i < (log ++ [(output, answer)]).length := (List.getElem?_eq_some_iff.mp hentry).1
      rw [List.length_append, List.length_singleton] at hlen
      obtain rfl : i = log.length := by omega
      rw [List.getElem?_concat_length] at hentry
      obtain rfl := Option.some.inj hentry
      rwa [List.take_left]
  obtain ⟨rfl, rfl⟩ | ⟨⟨hbyHash, hwindow, hindex⟩, hold, hstub⟩ := step_cases hstep
  · refine ⟨?_, fun e he => ?_, fun c hc => ?_, hlast (.inl rfl)⟩
    · rw [keep_chunkIndex, List.length_append, List.length_singleton, ← hs.chunkIndex]
    · obtain he | ⟨hhash, hid⟩ := mem_keep_byHash he
      · obtain ⟨content, hcontents, hhash, hlog⟩ := hs.byHash e he
        exact ⟨content, hcontents, hhash, hearlier hlog⟩
      · refine ⟨output.2, hcontent, hhash, List.mem_append_right _ ?_⟩
        rw [Canonical.entry, ← hid]
        exact List.mem_singleton_self _
    · obtain hc | houtput := mem_keep_window hc
      · exact hearlier (hs.window c hc)
      · refine List.mem_append_right _ ?_
        rw [houtput]
        exact List.mem_singleton_self _
  · rw [hs.chunkIndex] at hold hindex
    refine ⟨?_, fun e he => ?_, fun c hc => ?_, hlast (.inr ?_)⟩
    · rw [hindex, List.length_append, List.length_singleton]
    · obtain ⟨content, hcontents, hhash, hlog⟩ := hs.byHash e (hbyHash ▸ he)
      exact ⟨content, hcontents, hhash, hearlier hlog⟩
    · exact hearlier (hs.window c (hwindow ▸ hc))
    · obtain ⟨id, hlookup, rfl, htokens⟩ | hbest := hstub
      · obtain ⟨_, _, hsplit, -⟩ := List.lookup_eq_some_iff.mp hlookup
        have hmem : (hash output.2, id) ∈ s.byHash := by
          rw [hsplit]
          exact List.mem_append_right _ List.mem_cons_self
        obtain ⟨content, hcontents, hhash, hlog⟩ := hs.byHash _ hmem
        -- equal hashes are equal contents
        obtain rfl : output.2 = content := hinj hcontent hcontents hhash
        exact ⟨hold, htokens, _, hlog, .inl ⟨rfl, rfl⟩⟩
      · obtain ⟨htokens, canonical, hcanonical, hrebuilds⟩ := bestDeltaStub_spec hbest
        exact ⟨hold, htokens, canonical, hs.window canonical hcanonical, hrebuilds⟩

/-- In a run each output stays or is rebuilt from the log before it. -/
theorem replaced_of_run {contents : Set String} (hinj : Set.InjOn hash contents)
    (stats : DedupStats) {outputs : List Output} (hcontents : ∀ o ∈ outputs, o.2 ∈ contents) :
    ∀ i entry, (Trace.log (step hash protect chunkCount) { stats } outputs)[i]? = some entry →
      Replaced chunkCount
        ((Trace.log (step hash protect chunkCount) { stats } outputs).take i) entry := by
  have hstart : Sound hash contents chunkCount [] { stats } := by
    refine ⟨rfl, fun _ h => ?_, fun _ h => ?_, fun _ _ h => ?_⟩ <;> cases h
  have halong : Trace.Along (step hash protect chunkCount) (fun _ o => o.2 ∈ contents) { stats }
      outputs := Trace.along_of_forall hcontents
  exact (Trace.log_invariant (fun log s o ho hs => hs.after_step hinj log s o ho) halong
    hstart).replaced

end Run

/-! ## The walk over the messages -/

def contentOutputs (id : Option String) (value : Json) : List Output :=
  (stringContent value).toList.map fun content => (id, content)

def blockOutputs (block : Json) : List Output :=
  match (block.get "tool_use_id").bind Json.asStr with
  | none => []
  | some id => contentOutputs (some id) block

/-- The string tool outputs of a message with their tool-call ids. -/
def toolOutputs (message : Json) : List Output :=
  if isToolMessage message then contentOutputs (toolId message) message
  else (((message.get "content").bind Json.asArray).getD []).flatMap blockOutputs

def blankContent (value : Json) : Json :=
  match stringContent value with
  | none => value
  | some _ => setContent (.string "") value

def blankBlock (block : Json) : Json :=
  if ((block.get "tool_use_id").bind Json.asStr).isSome then blankContent block else block

/-- A message without the texts of its string tool outputs. -/
def blank (message : Json) : Json :=
  if isToolMessage message then blankContent message
  else
    match (message.get "content").bind Json.asArray with
    | none => message
    | some blocks => setContent (.array (blocks.map blankBlock)) message

theorem lookup_map_content (content : Json) (key : String) (entries : List (String × Json)) :
    (entries.map fun e => if e.1 = "content" then (e.1, content) else e).lookup key =
      if key = "content" then (entries.lookup key).map fun _ => content
      else entries.lookup key := by
  induction entries with
  | nil => simp
  | cons e rest ih =>
    obtain ⟨k, v⟩ := e
    have hfst : (if k = "content" then (k, content) else (k, v)).1 = k := by split_ifs <;> rfl
    rw [List.map_cons, List.lookup_cons, List.lookup_cons, hfst, ih]
    by_cases hkey : key = k
    · rw [hkey, beq_self_eq_true]
      split_ifs <;> rfl
    · rw [beq_false_of_ne hkey]

theorem get_setContent (content : Json) (key : String) (value : Json) :
    (setContent content value).get key =
      if key = "content" then (value.get key).map fun _ => content else value.get key := by
  cases value with
  | object entries => exact lookup_map_content content key entries
  | null | bool _ | number _ | string _ | array _ => simp [setContent, Json.get]

theorem get_content_setContent (content : Json) {old value : Json}
    (h : value.get "content" = some old) :
    (setContent content value).get "content" = some content := by
  rw [get_setContent, if_pos rfl, h]
  rfl

theorem get_setContent_of_ne {content value : Json} {key : String} (h : key ≠ "content") :
    (setContent content value).get key = value.get key := by
  rw [get_setContent, if_neg h]

theorem setContent_setContent (content other value : Json) :
    setContent content (setContent other value) = setContent content value := by
  cases value with
  | object entries =>
    simp only [setContent, List.map_map]
    congr 2
    funext e
    simp only [Function.comp_apply]
    split_ifs <;> simp_all
  | null | bool _ | number _ | string _ | array _ => rfl

theorem isToolMessage_setContent (content message : Json) :
    isToolMessage (setContent content message) = isToolMessage message := by
  rw [isToolMessage, isToolMessage, get_setContent_of_ne (by decide),
    get_setContent_of_ne (by decide)]

theorem toolId_setContent (content message : Json) :
    toolId (setContent content message) = toolId message := by
  rw [toolId, toolId, get_setContent_of_ne (by decide), get_setContent_of_ne (by decide)]

theorem get_of_stringContent {value : Json} {text : String} (h : stringContent value = some text) :
    ∃ old, value.get "content" = some old := by
  obtain ⟨old, hold, -⟩ := Option.bind_eq_some_iff.mp h
  exact ⟨old, hold⟩

theorem stringContent_setContent {value : Json} {text : String}
    (h : stringContent value = some text) (new : String) :
    stringContent (setContent (.string new) value) = some new := by
  obtain ⟨old, hold⟩ := get_of_stringContent h
  rw [stringContent, get_content_setContent _ hold]
  rfl

section Walk

variable {σ : Type} (visit : σ → Output → String × σ)

/-- A walk hands the visitor the outputs in order, and puts back its answers and nothing else. -/
structure Walks (visitOne : σ → Json → Json × σ) (outputs : Json → List Output)
    (blank : Json → Json) : Prop where
  final : ∀ s v, (visitOne s v).2 = Trace.final visit s (outputs v)
  answers : ∀ s v, outputs (visitOne s v).1 =
    (Trace.log visit s (outputs v)).map fun e => (e.1.1, e.2)
  blank : ∀ s v, blank (visitOne s v).1 = blank v

variable {visit}

theorem visitEach_cons (visitOne : σ → Json → Json × σ) (s : σ) (value : Json)
    (rest : List Json) :
    visitEach visitOne s (value :: rest) =
      ((visitOne s value).1 :: (visitEach visitOne (visitOne s value).2 rest).1,
        (visitEach visitOne (visitOne s value).2 rest).2) := rfl

theorem Walks.each {visitOne : σ → Json → Json × σ} {outputs : Json → List Output}
    {blank : Json → Json} (h : Walks visit visitOne outputs blank) (s : σ) (values : List Json) :
    (visitEach visitOne s values).2 = Trace.final visit s (values.flatMap outputs) ∧
    (visitEach visitOne s values).1.flatMap outputs =
      (Trace.log visit s (values.flatMap outputs)).map (fun e => (e.1.1, e.2)) ∧
    (visitEach visitOne s values).1.map blank = values.map blank := by
  induction values generalizing s with
  | nil => exact ⟨rfl, rfl, rfl⟩
  | cons value rest ih =>
    obtain ⟨hfinal, hanswers, hblank⟩ := ih (visitOne s value).2
    refine ⟨?_, ?_, ?_⟩
    · rw [visitEach_cons, List.flatMap_cons, Trace.final_append, ← h.final, ← hfinal]
    · rw [visitEach_cons, List.flatMap_cons, List.flatMap_cons, Trace.log_append, List.map_append,
        ← h.answers, ← h.final, ← hanswers]
    · rw [visitEach_cons, List.map_cons, List.map_cons, hblank, h.blank]

variable (visit)

theorem walks_content (id : Option String) :
    Walks visit (visitContent visit id) (contentOutputs id) blankContent := by
  refine ⟨fun s v => ?_, fun s v => ?_, fun s v => ?_⟩
  all_goals
    unfold visitContent
    cases h : stringContent v with
    | none => simp [contentOutputs, h, Trace.final, Trace.log]
    | some text =>
      have hnew := stringContent_setContent h (visit s (id, text)).1
      simp [contentOutputs, blankContent, h, hnew, setContent_setContent, Trace.final, Trace.log]

/-- Only the content of a value is put back. -/
theorem visitContent_frame (id : Option String) (s : σ) (value : Json) :
    (visitContent visit id s value).1 = value ∨
      ∃ content, (visitContent visit id s value).1 = setContent content value := by
  unfold visitContent
  split
  · exact .inl rfl
  · exact .inr ⟨_, rfl⟩

theorem walks_block : Walks visit (visitBlock visit) blockOutputs blankBlock := by
  have hid : ∀ s v id, ((visitContent visit id s v).1.get "tool_use_id") = v.get "tool_use_id" := by
    intro s v id
    obtain h | ⟨content, h⟩ := visitContent_frame visit id s v
    · rw [h]
    · rw [h, get_setContent_of_ne (by decide)]
  refine ⟨fun s v => ?_, fun s v => ?_, fun s v => ?_⟩
  all_goals
    unfold visitBlock
    cases h : (v.get "tool_use_id").bind Json.asStr with
    | none => simp [blockOutputs, blankBlock, h, Trace.final, Trace.log]
    | some id =>
      have hwalk := walks_content visit (some id)
      simp [blockOutputs, blankBlock, h, hid, hwalk.final, hwalk.answers, hwalk.blank]

theorem walks_message : Walks visit (visitToolOutputs visit) toolOutputs blank := by
  have hkeeps : ∀ s v id, isToolMessage (visitContent visit id s v).1 = isToolMessage v ∧
      toolId (visitContent visit id s v).1 = toolId v := by
    intro s v id
    obtain h | ⟨content, h⟩ := visitContent_frame visit id s v
    · rw [h]
      exact ⟨rfl, rfl⟩
    · rw [h]
      exact ⟨isToolMessage_setContent content v, toolId_setContent content v⟩
  refine ⟨fun s v => ?_, fun s v => ?_, fun s v => ?_⟩
  all_goals
    unfold visitToolOutputs
    cases htool : isToolMessage v with
    | true =>
      obtain ⟨hstill, hsame⟩ := hkeeps s v (toolId v)
      have hwalk := walks_content visit (toolId v)
      rw [htool] at hstill
      simp [toolOutputs, blank, htool, hstill, hsame, hwalk.final, hwalk.answers, hwalk.blank]
    | false =>
      cases hblocks : (v.get "content").bind Json.asArray with
      | none => simp [toolOutputs, blank, htool, hblocks, Trace.final, Trace.log]
      | some blocks =>
        obtain ⟨old, hold, -⟩ := Option.bind_eq_some_iff.mp hblocks
        obtain ⟨hfinal, hanswers, hblank⟩ := (walks_block visit).each s blocks
        have hstill := isToolMessage_setContent (.array (visitEach (visitBlock visit) s blocks).1) v
        have hnew := get_content_setContent (.array (visitEach (visitBlock visit) s blocks).1) hold
        rw [htool] at hstill
        simp [toolOutputs, blank, htool, hstill, hblocks, hnew, hfinal, hanswers, hblank,
          setContent_setContent, Json.asArray]

/-! ## The counts -/

/-- The tool-call ids of the blocks are strings where they are present. -/
def IdsAreStrings (message : Json) : Prop :=
  isToolMessage message = false →
    ∀ blocks, (message.get "content").bind Json.asArray = some blocks →
    ∀ block ∈ blocks, (block.get "tool_use_id").isSome →
      ((block.get "tool_use_id").bind Json.asStr).isSome

theorem length_contentOutputs (id : Option String) (value : Json) :
    (contentOutputs id value).length = if (stringContent value).isSome then 1 else 0 := by
  rw [contentOutputs]
  cases stringContent value <;> rfl

/-- As many outputs are counted as are visited. -/
theorem toolOutputCount_eq {message : Json} (h : IdsAreStrings message) :
    toolOutputCount message = (toolOutputs message).length := by
  rw [toolOutputCount, toolOutputs]
  cases htool : isToolMessage message with
  | true => rw [if_pos rfl, if_pos rfl, length_contentOutputs]
  | false =>
    rw [if_neg Bool.false_ne_true, if_neg Bool.false_ne_true]
    cases hblocks : (message.get "content").bind Json.asArray with
    | none => rfl
    | some blocks =>
      have hids := h htool blocks hblocks
      clear h hblocks
      dsimp only [Option.getD_some]
      induction blocks with
      | nil => rfl
      | cons block rest ih =>
        obtain ⟨hblock, hrest⟩ := List.forall_mem_cons.mp hids
        rw [List.countP_cons, List.flatMap_cons, List.length_append, ih hrest, add_comm]
        congr 1
        rw [blockOutputs]
        cases hid : block.get "tool_use_id" with
        | none => rfl
        | some id =>
          obtain ⟨text, htext⟩ := Option.isSome_iff_exists.mp (hblock (hid ▸ rfl))
          rw [hid] at htext
          rw [htext, length_contentOutputs, Option.isSome_some, Bool.true_and]

end Walk

/-! ## The request -/

section Request

variable {H : Type} [DecidableEq H] {hash : String → H} {protect : Bool}

/-- The outputs of a request before and after, as a whole. -/
structure RebuiltFrom (outputs after : List Output) : Prop where
  ids : after.map Prod.fst = outputs.map Prod.fst
  recent : ∀ i : ℕ, outputs.length ≤ i + recentToolOutputs → after[i]? = outputs[i]?
  replaced : ∀ (i : ℕ) (id : Option String) (content answer : String),
    outputs[i]? = some (id, content) → after[i]? = some (id, answer) → answer ≠ content →
    estimateTokens answer < estimateTokens content ∧
      ∃ j < i, ∃ canonical : Canonical,
        outputs[j]? = some (some canonical.id, canonical.content) ∧ after[j]? = outputs[j]? ∧
        (∀ (k : ℕ) other, outputs[k]? = some (some canonical.id, other) → k = j) ∧
        Rebuilds canonical content answer

theorem index_unique {outputs : List Output} (h : (outputs.filterMap Prod.fst).Nodup)
    {j k : ℕ} {id content other : String} (hj : outputs[j]? = some (some id, content))
    (hk : outputs[k]? = some (some id, other)) : k = j := by
  rw [List.Nodup, List.pairwise_filterMap, List.pairwise_iff_getElem] at h
  obtain ⟨hjlen, hj⟩ := List.getElem?_eq_some_iff.mp hj
  obtain ⟨hklen, hk⟩ := List.getElem?_eq_some_iff.mp hk
  by_contra hne
  obtain hlt | hlt := Nat.lt_or_gt_of_ne hne
  · exact h k j hklen hjlen hlt id (by rw [hk]) id (by rw [hj]) rfl
  · exact h j k hjlen hklen hlt id (by rw [hj]) id (by rw [hk]) rfl

/-- A log in which every entry stays or is replaced rebuilds the outputs of the run. -/
theorem rebuiltFrom_of_log {outputs : List Output} {log : List (Output × String)}
    (hlog : log.map Prod.fst = outputs) (hdistinct : (outputs.filterMap Prod.fst).Nodup)
    (h : ∀ i entry, log[i]? = some entry → Replaced outputs.length (log.take i) entry) :
    RebuiltFrom outputs (log.map fun e => (e.1.1, e.2)) := by
  have hoverall : ∀ i : ℕ, outputs[i]? = (log[i]?).map Prod.fst := fun i => by
    rw [← hlog, List.getElem?_map]
  refine ⟨?_, fun i hi => ?_, fun i id content answer hcontent hanswer hne => ?_⟩
  · rw [List.map_map, ← hlog, List.map_map]
    rfl
  · rw [hoverall, List.getElem?_map]
    cases hentry : log[i]? with
    | none => rfl
    | some entry =>
      obtain hkept | ⟨hold, -, -⟩ := h i entry hentry
      · rw [Option.map_some, Option.map_some, hkept]
      · have hlen : i < log.length := (List.getElem?_eq_some_iff.mp hentry).1
        rw [List.length_take] at hold
        omega
  · rw [hoverall] at hcontent
    rw [List.getElem?_map] at hanswer
    obtain ⟨⟨output, text⟩, hentry, rfl⟩ := Option.map_eq_some_iff.mp hcontent
    rw [hentry, Option.map_some, Option.some.injEq, Prod.mk.injEq] at hanswer
    obtain rfl : text = answer := hanswer.2
    obtain hkept | ⟨-, htokens, canonical, hcanonical, hrebuilds⟩ := h i _ hentry
    · exact absurd hkept hne
    · obtain ⟨j, hj⟩ := List.mem_iff_getElem?.mp hcanonical
      have hlt : j < i := by
        by_contra hge
        rw [List.getElem?_take_eq_none (Nat.le_of_not_lt hge)] at hj
        cases hj
      rw [List.getElem?_take_of_lt hlt] at hj
      have hbefore : outputs[j]? = some (some canonical.id, canonical.content) := by
        rw [hoverall, hj]
        rfl
      refine ⟨htokens, j, hlt, canonical, hbefore, ?_, fun k other hk => ?_, hrebuilds⟩
      · rw [List.getElem?_map, hj, hbefore]
        rfl
      · exact index_unique hdistinct hbefore hk

/-- For messages with their tool-call ids strings and pairwise distinct, and a hash that tells
their tool outputs apart: every tool output stays or is rebuilt from an earlier one that stays,
the two newest stay, and so does all that is no string tool output. -/
theorem rebuilt_dedupToolOutputs {messages : List Json} (hids : ∀ m ∈ messages, IdsAreStrings m)
    (hdistinct : ((messages.flatMap toolOutputs).filterMap Prod.fst).Nodup)
    (hhash : Set.InjOn hash {content | ∃ id, (id, content) ∈ messages.flatMap toolOutputs}) :
    (dedupToolOutputs hash protect messages).1.map blank = messages.map blank ∧
      RebuiltFrom (messages.flatMap toolOutputs)
        ((dedupToolOutputs hash protect messages).1.flatMap toolOutputs) := by
  have hcount : (messages.map toolOutputCount).sum = (messages.flatMap toolOutputs).length := by
    rw [List.length_flatMap, List.map_congr_left fun m hm => toolOutputCount_eq (hids m hm)]
  obtain ⟨-, hanswers, hblank⟩ := (walks_message (step hash protect
    (messages.map toolOutputCount).sum)).each
      { stats := { chunksSeen := (messages.map toolOutputCount).sum } } messages
  refine ⟨hblank, ?_⟩
  rw [dedupToolOutputs]
  dsimp only
  rw [hanswers]
  refine rebuiltFrom_of_log (Trace.log_map_fst _ _) hdistinct ?_
  rw [← hcount]
  exact replaced_of_run hhash _ fun o ho => ⟨o.1, ho⟩

/-! ## One listing, twice -/

def sampleListing : String := "README.md Cargo.toml src tests examples benches docs"

def sampleMessage (id content : String) : Json :=
  .object [("content", .string content), ("role", .string "tool"), ("tool_call_id", .string id)]

def sample : List Json :=
  [sampleMessage "c1" sampleListing, sampleMessage "c2" sampleListing,
    sampleMessage "c3" "running 12 tests", sampleMessage "c4" "ok"]

def sampleHash (content : String) : String :=
  if content = sampleListing then
    "b12726f25cdfb6ebbb2694d41566b8a03c5baf62a3c1d379d128342e375fea4d"
  else if content = "running 12 tests" then
    "a4e4a252b8d68b9fb1ab68094180e132e6b4afd5a7a447a775b4c9fa78925130"
  else "d3cbd74709bf071c75cd0fd3a51e33486798101704e83ce228c7d53d11355fd1"

example : (dedupToolOutputs sampleHash false sample).1.flatMap toolOutputs =
    [(some "c1", sampleListing),
      (some "c2", "[lean-ctx: identical to tool result c1 above]"),
      (some "c3", "running 12 tests"), (some "c4", "ok")] := by decide +kernel

theorem rebuilt_dedupToolOutputs_sample :
    (dedupToolOutputs sampleHash false sample).1.map blank = sample.map blank ∧
      RebuiltFrom (sample.flatMap toolOutputs)
        ((dedupToolOutputs sampleHash false sample).1.flatMap toolOutputs) := by
  refine rebuilt_dedupToolOutputs (fun m hm htool => ?_) (by decide +kernel) ?_
  · have hall : ∀ m ∈ sample, isToolMessage m = true := by decide +kernel
    rw [hall m hm] at htool
    cases htool
  · have hcontents : ∀ o ∈ sample.flatMap toolOutputs, ∀ o' ∈ sample.flatMap toolOutputs,
        sampleHash o.2 = sampleHash o'.2 → o.2 = o'.2 := by decide +kernel
    rintro content ⟨id, ho⟩ content' ⟨id', ho'⟩ heq
    exact hcontents _ ho _ ho' heq

end Request

end LeanCtx.ToolDedup
