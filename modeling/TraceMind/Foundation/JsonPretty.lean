import TraceMind.Foundation.JsonSpec

namespace Json

def margin (level : ℕ) : List Char := Char.ofNat 10 :: List.replicate (2 * level) ' '

mutual

def pretty (st : Style) (level : ℕ) : Json → List Char
  | .arr [] => ['[', ']']
  | .arr (v :: vs) =>
    '[' :: (margin (level + 1) ++ (pretty st (level + 1) v ++ prettyItems st level vs))
  | .obj [] => ['{', '}']
  | .obj ((k, v) :: fs) =>
    '{' :: (margin (level + 1) ++ (st.string k ++ ':' :: ' ' ::
      (pretty st (level + 1) v ++ prettyFields st level fs)))
  | v => st.render v

def prettyItems (st : Style) (level : ℕ) : List Json → List Char
  | [] => margin level ++ [']']
  | v :: vs => ',' :: (margin (level + 1) ++ (pretty st (level + 1) v ++ prettyItems st level vs))

def prettyFields (st : Style) (level : ℕ) : List (List Char × Json) → List Char
  | [] => margin level ++ ['}']
  | (k, v) :: fs =>
    ',' :: (margin (level + 1) ++ (st.string k ++ ':' :: ' ' ::
      (pretty st (level + 1) v ++ prettyFields st level fs)))

end

section blanks

def Skips (s : State) : Prop := ∀ c, isBlank c = true → step s c = some s

theorem margin_blank (level : ℕ) : ∀ c ∈ margin level, isBlank c = true := by
  intro c hc
  rcases List.mem_cons.mp hc with rfl | hc
  · rfl
  · rw [List.eq_of_mem_replicate hc]
    rfl

theorem run_blanks {s : State} (h : Skips s) {bs : List Char} (hb : ∀ c ∈ bs, isBlank c = true)
    (cs : List Char) : run s (bs ++ cs) = run s cs := by
  induction bs with
  | nil => rfl
  | cons b bs ih =>
    obtain ⟨hb, hbs⟩ := List.forall_mem_cons.mp hb
    rw [List.cons_append, run_cons, h b hb, Option.bind_some, ih hbs]

theorem run_margin {s : State} (h : Skips s) (level : ℕ) (cs : List Char) :
    run s (margin level ++ cs) = run s cs := run_blanks h (margin_blank level) cs

variable {K : List Frame}

theorem skips_value : Skips ⟨K, .value⟩ := fun _ hc => if_pos hc

theorem skips_valueOrEnd : Skips ⟨K, .valueOrEnd⟩ := fun _ hc => if_pos hc

theorem skips_key : Skips ⟨K, .key⟩ := fun _ hc => if_pos hc

theorem skips_keyOrEnd : Skips ⟨K, .keyOrEnd⟩ := fun _ hc => if_pos hc

theorem skips_after : Skips ⟨K, .after⟩ := by
  intro c hc
  change next ⟨K, .after⟩ c = _
  unfold next
  exact if_pos hc

end blanks

section reading

variable (st : Style) {K : List Frame}

theorem run_keyOrEnd (k ds : List Char) :
    run ⟨K, .keyOrEnd⟩ (st.string k ++ ds) = run ⟨K, .key⟩ (st.string k ++ ds) := rfl

theorem run_valueOrEnd_head {cs ds : List Char} {c : Char} (hcs : cs = c :: ds)
    (hb : isBlank c = false) (hc : c ≠ ']') :
    run ⟨K, .valueOrEnd⟩ cs = run ⟨K, .value⟩ cs := by
  have hstep : step ⟨K, .valueOrEnd⟩ c = step ⟨K, .value⟩ c := by
    change (if isBlank c = true then _ else if c = ']' then _ else startValue K c) =
      if isBlank c = true then _ else startValue K c
    rw [hb, if_neg hc]
    rfl
  rw [hcs, run_cons, run_cons, hstep]

theorem pretty_head (level : ℕ) {v : Json} (h : readable v = true) :
    ∃ c cs, pretty st level v = c :: cs ∧ isBlank c = false ∧ c ≠ ']' := by
  cases v with
  | arr vs => cases vs <;> exact ⟨_, _, rfl, by decide, by decide⟩
  | obj fs =>
    cases fs with
    | nil => exact ⟨_, _, rfl, by decide, by decide⟩
    | cons f fs => exact ⟨_, _, rfl, by decide, by decide⟩
  | null => exact render_head st h
  | bool b => exact render_head st h
  | nan => exact render_head st h
  | infinity b => exact render_head st h
  | int n => exact render_head st h
  | float t => exact render_head st h
  | str s => exact render_head st h

end reading

mutual

theorem reads_pretty (st : Style) : ∀ (v : Json), readable v = true → ∀ level K, Open K →
    Reads K (pretty st level v) (merge v)
  | .null, h, _, K, hK => reads_merge st .null h K hK
  | .bool b, h, _, K, hK => reads_merge st (.bool b) h K hK
  | .nan, h, _, K, hK => reads_merge st .nan h K hK
  | .infinity b, h, _, K, hK => reads_merge st (.infinity b) h K hK
  | .int n, h, _, K, hK => reads_merge st (.int n) h K hK
  | .float t, h, _, K, hK => reads_merge st (.float t) h K hK
  | .str s, h, _, K, hK => reads_merge st (.str s) h K hK
  | .arr [], h, _, K, hK => reads_merge st (.arr []) h K hK
  | .obj [], h, _, K, hK => reads_merge st (.obj []) h K hK
  | .arr (v :: vs), h, level, K, hK => by
    obtain ⟨hv, hvs⟩ := Bool.and_eq_true_iff.mp h
    obtain ⟨t, ht⟩ := hK.complete (merge (.arr (v :: vs)))
    refine Reads.of_run ?_ ht
    change run ⟨.items [] :: K, .valueOrEnd⟩ (margin (level + 1) ++
      (pretty st (level + 1) v ++ prettyItems st level vs)) = _
    obtain ⟨c, cs, hcs, hb, hc⟩ := pretty_head st (level + 1) hv
    rw [run_margin skips_valueOrEnd,
      run_valueOrEnd_head (congrArg (· ++ prettyItems st level vs) hcs) hb hc]
    exact run_prettyItems st vs hvs level [] (reads_pretty st v hv _ _ trivial)
  | .obj ((k, v) :: fs), h, level, K, hK => by
    obtain ⟨hv, hfs⟩ := Bool.and_eq_true_iff.mp h
    obtain ⟨t, ht⟩ := hK.complete (merge (.obj ((k, v) :: fs)))
    refine Reads.of_run ?_ ht
    change run ⟨.fields [] :: K, .keyOrEnd⟩ (margin (level + 1) ++ (st.string k ++ ':' :: ' ' ::
      (pretty st (level + 1) v ++ prettyFields st level fs))) = _
    rw [run_margin skips_keyOrEnd, run_keyOrEnd, run_key]
    exact run_prettyFields st fs hfs level [] k (reads_pretty st v hv _ _ trivial)

theorem run_prettyItems (st : Style) : ∀ (vs : List Json), readableItems vs = true →
    ∀ level done {cs : List Char} {w : Json} {K : List Frame}, Reads (.items done :: K) cs w →
    run ⟨.items done :: K, .value⟩ (cs ++ prettyItems st level vs) =
      complete K (.arr (done ++ w :: mergeItems vs))
  | [], _, level, done, cs, w, K, hv => by
    rw [prettyItems, margin, List.cons_append, hv.run_end (by decide)]
    change run ⟨.items (done ++ [w]) :: K, .after⟩ (margin level ++ [']']) =
      complete K (.arr (done ++ [w]))
    rw [run_margin skips_after]
    change (complete K (.arr (done ++ [w]))).bind (fun t => run t []) = _
    cases complete K (.arr (done ++ [w])) <;> rfl
  | x :: xs, h, level, done, cs, w, K, hv => by
    obtain ⟨hx, hxs⟩ := Bool.and_eq_true_iff.mp h
    rw [prettyItems, hv.run_end (by decide)]
    change run ⟨.items (done ++ [w]) :: K, .value⟩ (margin (level + 1) ++
      (pretty st (level + 1) x ++ prettyItems st level xs)) = _
    rw [run_margin skips_value,
      run_prettyItems st xs hxs level (done ++ [w]) (reads_pretty st x hx _ _ trivial),
      List.append_assoc]
    rfl

theorem run_prettyFields (st : Style) : ∀ (fs : List (List Char × Json)),
    readableFields fs = true → ∀ level done k {cs : List Char} {w : Json} {K : List Frame},
    Reads (.field done k :: K) cs w →
    run ⟨.field done k :: K, .colon⟩ (':' :: ' ' :: (cs ++ prettyFields st level fs)) =
      complete K (.obj (mergeFields (setField k w done) fs))
  | [], _, level, done, k, cs, w, K, hv => by
    change run ⟨.field done k :: K, .value⟩ (cs ++ prettyFields st level []) = _
    rw [prettyFields, margin, List.cons_append, hv.run_end (by decide)]
    change run ⟨.fields (setField k w done) :: K, .after⟩ (margin level ++ ['}']) =
      complete K (.obj (setField k w done))
    rw [run_margin skips_after]
    change (complete K (.obj (setField k w done))).bind (fun t => run t []) = _
    cases complete K (.obj (setField k w done)) <;> rfl
  | (k', x) :: fs, h, level, done, k, cs, w, K, hv => by
    obtain ⟨hx, hfs⟩ := Bool.and_eq_true_iff.mp h
    change run ⟨.field done k :: K, .value⟩ (cs ++ prettyFields st level ((k', x) :: fs)) = _
    rw [prettyFields, hv.run_end (by decide)]
    change run ⟨.fields (setField k w done) :: K, .key⟩ (margin (level + 1) ++ (st.string k' ++
      ':' :: ' ' :: (pretty st (level + 1) x ++ prettyFields st level fs))) = _
    rw [run_margin skips_key, run_key]
    exact run_prettyFields st fs hfs level _ k' (reads_pretty st x hx _ _ trivial)

end

theorem loads_pretty (st : Style) (level : ℕ) {v : Json} (h : wf v = true) :
    loads (pretty st level v) = some v := by
  rw [loads_of_reads (reads_pretty st v (readable_of_wf h) level [] trivial), merge_of_wf h]

theorem pretty_injective (st : Style) (level : ℕ) {v w : Json} (hv : wf v = true)
    (hw : wf w = true) (h : pretty st level v = pretty st level w) : v = w := by
  have hload := loads_pretty st level hv
  rw [h, loads_pretty st level hw] at hload
  exact (Option.some.inj hload).symm

end Json
