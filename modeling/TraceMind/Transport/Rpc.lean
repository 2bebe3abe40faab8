import TraceMind.Foundation.Counting
import TraceMind.Transport.Http

namespace TraceMind.Transport

open Queue (Document PyFloat PyText)

open FileQueueTransport (HandlerResult bodyOf)

namespace HttpServer

def start (myId : Str) (named : myId ≠ []) : HttpServer := { transport := { myId, named } }

section serial

variable (py : PyText) (float : PyFloat)

def Call.misses (k : Str) : Call → Bool
  | .missed d => hasKey py float k d
  | _ => false

def Call.owes (k : Str) : Call → Bool
  | .answered d _ => hasKey py float k d
  | .failed d => hasKey py float k d
  | _ => false

def misses (k : Str) (s : HttpServer) : ℕ := s.calls.countP (Call.misses py float k)

def owing (k : Str) (s : HttpServer) : ℕ := s.calls.countP (Call.owes py float k)

def SeenEntry.payload : Option SeenEntry → Option Document
  | some (.reply payload) => some payload
  | _ => none

def SeenEntry.isReply (e : Option SeenEntry) : Bool := (SeenEntry.payload e).isSome

def Settled (k : Str) (s : HttpServer) : Prop := misses py float k s = 0 ∧ owing py float k s = 0

def Serial (p : Str × Str) (s : HttpServer) : HttpAction → Prop
  | .rpc d => hasKey py float (composite p) d = true → Settled py float (composite p) s
  | _ => True

def SerialRun (p : Str × Str) (s : HttpServer) : List HttpAction → Prop
  | [] => True
  | a :: as => Serial py float p s a ∧ SerialRun p (s.step py float a) as

instance (k : Str) (s : HttpServer) : Decidable (Settled py float k s) :=
  inferInstanceAs (Decidable (_ = 0 ∧ _ = 0))

instance instDecidableSerial (p : Str × Str) (s : HttpServer) :
    ∀ a, Decidable (Serial py float p s a)
  | .rpc d => inferInstanceAs (Decidable (hasKey py float (composite p) d = true → _))
  | .register _ => isTrue trivial
  | .unregister _ => isTrue trivial
  | .push _ => isTrue trivial
  | .deposit _ => isTrue trivial
  | .recv _ => isTrue trivial
  | .invoke _ _ => isTrue trivial
  | .record _ => isTrue trivial

instance instDecidableSerialRun (p : Str × Str) :
    ∀ (s : HttpServer) as, Decidable (SerialRun py float p s as)
  | _, [] => isTrue trivial
  | s, a :: as =>
    have := instDecidableSerialRun p (s.step py float a) as
    inferInstanceAs (Decidable (Serial py float p s a ∧ _))

def invocations (p : Str × Str) (s : HttpServer) : ℕ := s.invoked.countP (hasPair py float p)

def Call.replied (p : Str × Str) : Call → Option Document
  | .returned d reply => if hasPair py float p d then some reply else none
  | _ => none

def replies (p : Str × Str) (s : HttpServer) : List Document :=
  s.calls.filterMap (Call.replied py float p)

end serial

section invariant

variable (py : PyText) (float : PyFloat)

structure Replaying (k : Str) (s : HttpServer) : Prop where
  alone : misses py float k s + owing py float k s +
    (SeenEntry.isReply (s.transport.dedupSeen k)).toNat ≤ 1
  invoked : s.invoked.countP (hasKey py float k) ≤
    owing py float k s + (SeenEntry.isReply (s.transport.dedupSeen k)).toNat
  returned : ∀ d reply, Call.returned d reply ∈ s.calls → hasKey py float k d = true →
    s.transport.dedupSeen k = some (.reply reply)

end invariant

section steps

variable {py : PyText} {float : PyFloat} {k : Str} {s : HttpServer}

theorem Replaying.of_same {s' : HttpServer} (h : Replaying py float k s)
    (hcalls : s'.calls = s.calls) (hinvoked : s'.invoked = s.invoked)
    (hseen : s'.transport.dedupSeen k = s.transport.dedupSeen k) : Replaying py float k s' := by
  obtain ⟨halone, hinv, hret⟩ := h
  refine ⟨?_, ?_, fun d reply hd hkey => ?_⟩
  · rw [misses, owing, hcalls, hseen]
    exact halone
  · rw [owing, hcalls, hinvoked, hseen]
    exact hinv
  · rw [hcalls] at hd
    rw [hseen]
    exact hret d reply hd hkey

theorem Replaying.snoc (h : Replaying py float k s) {c : Call}
    (hmiss : Call.misses py float k c = false) (howes : Call.owes py float k c = false)
    (hret : ∀ d reply, c = .returned d reply → hasKey py float k d = true →
      s.transport.dedupSeen k = some (.reply reply)) (suppressed : List Document) :
    Replaying py float k { s with calls := s.calls ++ [c], suppressed } := by
  refine ⟨?_, ?_, fun d reply hd hkey => ?_⟩
  · show (s.calls ++ [c]).countP _ + (s.calls ++ [c]).countP _ + _ ≤ 1
    rw [Tally.snoc_count, Tally.snoc_count, hmiss, howes]
    exact h.alone
  · show _ ≤ (s.calls ++ [c]).countP _ + _
    rw [Tally.snoc_count, howes]
    exact h.invoked
  · rcases List.mem_append.mp hd with hd | hd
    · exact h.returned d reply hd hkey
    · exact hret d reply (List.mem_singleton.mp hd).symm hkey

theorem Replaying.set (h : Replaying py float k s) {i : ℕ} {c c' : Call}
    (hget : s.calls[i]? = some c) (hmiss : Call.misses py float k c' = false)
    (howes : Call.owes py float k c = false) (howes' : Call.owes py float k c' = false)
    (hret : ∀ d reply, c' ≠ .returned d reply) :
    Replaying py float k { s with calls := s.calls.set i c' } := by
  have hm := Tally.set_count (p := Call.misses py float k) (y := c') hget
  have ho := Tally.set_count (p := Call.owes py float k) (y := c') hget
  rw [hmiss] at hm
  rw [howes, howes'] at ho
  have halone := h.alone
  refine ⟨?_, ?_, fun d reply hd hkey => ?_⟩
  · show (s.calls.set i c').countP _ + (s.calls.set i c').countP _ +
      (SeenEntry.isReply (s.transport.dedupSeen k)).toNat ≤ 1
    simp only [Bool.toNat_false, misses, owing] at hm ho halone
    omega
  · show _ ≤ (s.calls.set i c').countP _ + _
    rw [show (s.calls.set i c').countP _ = s.calls.countP _ from ho]
    exact h.invoked
  · rcases List.mem_or_eq_of_mem_set hd with hd | hd
    · exact h.returned d reply hd hkey
    · exact absurd hd.symm (hret d reply)

theorem isDuplicate_isReply (d : Document) (t : HttpTransport) :
    (t.isDuplicate py float d).2.dedupSeen k = t.dedupSeen k ∨
      SeenEntry.isReply ((t.isDuplicate py float d).2.dedupSeen k) = false ∧
        SeenEntry.isReply (t.dedupSeen k) = false := by
  unfold HttpTransport.isDuplicate
  split
  · exact Or.inl rfl
  · rename_i k' hk'
    split
    · exact Or.inl rfl
    · rename_i hnone
      by_cases hk : k = k'
      · subst hk
        refine Or.inr ⟨?_, ?_⟩
        · show SeenEntry.isReply (Function.update t.dedupSeen k _ k) = false
          rw [Function.update_self]
          rfl
        · rw [hnone]
          rfl
      · exact Or.inl (Function.update_of_ne hk _ _)

theorem Replaying.enter (h : Replaying py float k s) {t : HttpTransport}
    (hseen : t.dedupSeen k = s.transport.dedupSeen k ∨
      SeenEntry.isReply (t.dedupSeen k) = false ∧
        SeenEntry.isReply (s.transport.dedupSeen k) = false) :
    Replaying py float k { s with transport := t } := by
  rcases hseen with hseen | ⟨hnew, hold⟩
  · exact h.of_same rfl rfl hseen
  · obtain ⟨halone, hinv, hret⟩ := h
    rw [hold] at halone hinv
    refine ⟨?_, ?_, fun d reply hd hkey => ?_⟩
    · show _ + _ + (SeenEntry.isReply (t.dedupSeen k)).toNat ≤ 1
      rw [hnew]
      exact halone
    · show _ ≤ _ + (SeenEntry.isReply (t.dedupSeen k)).toNat
      rw [hnew]
      exact hinv
    · rw [hret d reply hd hkey] at hold
      cases hold

theorem push_replaying (h : Replaying py float k s) (d : Document) :
    Replaying py float k (s.push py float d) := by
  unfold push
  dsimp only
  split_ifs
  · exact h.snoc rfl rfl (fun _ _ hc => by cases hc) _
  · exact h.snoc rfl rfl (fun _ _ hc => by cases hc) _
  · exact (h.enter (isDuplicate_isReply d s.transport)).snoc rfl rfl
      (fun _ _ hc => by cases hc) _

theorem deposit_replaying (h : Replaying py float k s) (i : ℕ) :
    Replaying py float k (s.deposit py float i) := by
  unfold deposit
  split
  · rename_i d hget
    exact (h.set hget rfl rfl rfl (fun _ _ hc => by cases hc)).of_same rfl rfl rfl
  · exact h

theorem recv_replaying (h : Replaying py float k s) (peer : Str) :
    Replaying py float k (s.recv peer) := by
  refine h.of_same rfl rfl ?_
  show (s.transport.recv peer).2.dedupSeen k = _
  unfold HttpTransport.recv
  split <;> rfl

theorem cachedReply_seen {d : Document} {t : HttpTransport} (hkey : hasKey py float k d = true) :
    t.cachedReply py float d = SeenEntry.payload (t.dedupSeen k) := by
  rw [HttpTransport.cachedReply, of_decide_eq_true hkey]
  rfl

theorem seen_of_payload {e : Option SeenEntry} {reply : Document}
    (h : SeenEntry.payload e = some reply) : e = some (.reply reply) := by
  rcases e with _ | _ | payload
  · cases h
  · cases h
  · rw [Option.some.inj h]

theorem rpc_replaying (h : Replaying py float k s) {d : Document}
    (hsettled : hasKey py float k d = true → Settled py float k s) :
    Replaying py float k (s.rpc py float d) := by
  unfold rpc
  split
  · exact h.snoc rfl rfl (fun _ _ hc => by cases hc) s.suppressed
  · split
    · rename_i reply hcached
      refine h.snoc rfl rfl (fun d' reply' hc hkey => ?_) _
      obtain ⟨rfl, rfl⟩ := Call.returned.inj hc
      exact seen_of_payload ((cachedReply_seen hkey).symm.trans hcached)
    · rename_i hcached
      by_cases hkey : hasKey py float k d = true
      · obtain ⟨hmiss, howe⟩ := hsettled hkey
        have hno : SeenEntry.isReply (s.transport.dedupSeen k) = false := by
          rw [SeenEntry.isReply, ← cachedReply_seen hkey, hcached]
          rfl
        refine ⟨?_, ?_, fun d' reply hd hk => ?_⟩
        · show (s.calls ++ [_]).countP _ + (s.calls ++ [_]).countP _ + _ ≤ 1
          rw [Tally.snoc_count, Tally.snoc_count, show s.calls.countP _ = 0 from hmiss,
            show s.calls.countP _ = 0 from howe, hno]
          show 0 + (hasKey py float k d).toNat + (0 + 0) + 0 ≤ 1
          rw [hkey]
          exact le_refl 1
        · show _ ≤ (s.calls ++ [_]).countP _ + _
          rw [Tally.snoc_count]
          exact h.invoked
        · rcases List.mem_append.mp hd with hd | hd
          · exact h.returned d' reply hd hk
          · cases List.mem_singleton.mp hd
      · exact h.snoc (by simpa [Call.misses] using hkey) rfl (fun _ _ hc => by cases hc) s.suppressed

theorem outcome_misses (result : HandlerResult) (d : Document) :
    Call.misses py float k (outcome result d) = false := by
  cases result <;> rfl

theorem outcome_owes (result : HandlerResult) (d : Document) :
    Call.owes py float k (outcome result d) = hasKey py float k d := by
  cases result <;> rfl

theorem invoke_replaying (h : Replaying py float k s) (i : ℕ) (result : HandlerResult) :
    Replaying py float k (s.invoke py float i result) := by
  unfold invoke
  split
  · rename_i d hget
    dsimp only
    split_ifs
    · have hm := Tally.set_count (p := Call.misses py float k) (y := outcome result d) hget
      have ho := Tally.set_count (p := Call.owes py float k) (y := outcome result d) hget
      rw [outcome_misses] at hm
      rw [outcome_owes] at ho
      have halone := h.alone
      have hinv := h.invoked
      simp only [misses, owing, Call.misses, Call.owes, Bool.toNat_false] at hm ho halone hinv
      refine ⟨?_, ?_, fun d' reply hd hkey => ?_⟩
      · show (s.calls.set i _).countP _ + (s.calls.set i _).countP _ +
          (SeenEntry.isReply (s.transport.dedupSeen k)).toNat ≤ 1
        omega
      · show (d :: s.invoked).countP _ ≤ (s.calls.set i _).countP _ +
          (SeenEntry.isReply (s.transport.dedupSeen k)).toNat
        rw [Tally.cons_count]
        omega
      · rcases List.mem_or_eq_of_mem_set hd with hd | hd
        · exact h.returned d' reply hd hkey
        · cases result <;> cases hd
    · exact h.set hget rfl rfl rfl (fun _ _ hc => by cases hc)
  · exact h

theorem recordReply_seen (d reply : Document) (t : HttpTransport) :
    (t.recordReply py float d reply).dedupSeen k =
      if hasKey py float k d then some (.reply reply) else t.dedupSeen k := by
  unfold HttpTransport.recordReply hasKey
  split
  · rename_i hnone
    rw [hnone]
    rfl
  · rename_i k' hsome
    rw [hsome]
    by_cases hk : k' = k
    · rw [hk, decide_eq_true rfl, if_pos rfl]
      exact Function.update_self ..
    · rw [decide_eq_false (fun h => hk (Option.some.inj h)), if_neg Bool.false_ne_true]
      exact Function.update_of_ne (Ne.symm hk) _ _

theorem record_replaying (h : Replaying py float k s) (i : ℕ) :
    Replaying py float k (s.record py float i) := by
  unfold record
  split
  · rename_i d reply hget
    have hm := Tally.set_count (p := Call.misses py float k) (y := .returned d reply) hget
    have ho := Tally.set_count (p := Call.owes py float k) (y := .returned d reply) hget
    have halone := h.alone
    have hinv := h.invoked
    simp only [misses, owing, Call.misses, Call.owes, Bool.toNat_false] at hm ho halone hinv
    have hseen : (s.transport.recordReply py float d reply).dedupSeen k =
        if hasKey py float k d then some (.reply reply) else s.transport.dedupSeen k :=
      recordReply_seen d reply s.transport
    by_cases hkey : hasKey py float k d = true
    · rw [hkey, if_pos rfl] at hseen
      rw [hkey, Bool.toNat_true] at ho
      refine ⟨?_, ?_, fun d' reply' hd hk => ?_⟩
      · show (s.calls.set i _).countP _ + (s.calls.set i _).countP _ +
          (SeenEntry.isReply ((s.transport.recordReply py float d reply).dedupSeen k)).toNat ≤ 1
        rw [hseen]
        show _ + _ + 1 ≤ 1
        omega
      · show s.invoked.countP _ ≤ (s.calls.set i _).countP _ +
          (SeenEntry.isReply ((s.transport.recordReply py float d reply).dedupSeen k)).toNat
        rw [hseen]
        show _ ≤ _ + 1
        omega
      · show (s.transport.recordReply py float d reply).dedupSeen k = _
        rcases List.mem_or_eq_of_mem_set hd with hd | hd
        · rw [h.returned d' reply' hd hk] at halone
          change _ + _ + 1 ≤ 1 at halone
          omega
        · rw [hseen, (Call.returned.inj hd).2]
    · rw [if_neg hkey] at hseen
      have hfalse : hasKey py float k d = false := Bool.not_eq_true _ ▸ hkey
      rw [hfalse, Bool.toNat_false] at ho
      refine ⟨?_, ?_, fun d' reply' hd hk => ?_⟩
      · show (s.calls.set i _).countP _ + (s.calls.set i _).countP _ +
          (SeenEntry.isReply ((s.transport.recordReply py float d reply).dedupSeen k)).toNat ≤ 1
        rw [hseen]
        omega
      · show s.invoked.countP _ ≤ (s.calls.set i _).countP _ +
          (SeenEntry.isReply ((s.transport.recordReply py float d reply).dedupSeen k)).toNat
        rw [hseen]
        omega
      · show (s.transport.recordReply py float d reply).dedupSeen k = _
        rw [hseen]
        rcases List.mem_or_eq_of_mem_set hd with hd | hd
        · exact h.returned d' reply' hd hk
        · rw [(Call.returned.inj hd).1, hfalse] at hk
          cases hk
  · exact h

theorem step_replaying {p : Str × Str} (h : Replaying py float (composite p) s) {a : HttpAction}
    (hserial : Serial py float p s a) :
    Replaying py float (composite p) (s.step py float a) := by
  cases a with
  | register peer => exact h.of_same rfl rfl rfl
  | unregister peer => exact h.of_same rfl rfl rfl
  | push d => exact push_replaying h d
  | deposit i => exact deposit_replaying h i
  | recv peer => exact recv_replaying h peer
  | rpc d => exact rpc_replaying h hserial
  | invoke i result => exact invoke_replaying h i result
  | record i => exact record_replaying h i

theorem run_replaying {p : Str × Str} {as : List HttpAction} :
    ∀ {s : HttpServer}, Replaying py float (composite p) s → SerialRun py float p s as →
      Replaying py float (composite p) (s.run py float as) := by
  induction as with
  | nil => exact fun h _ => h
  | cons a as ih => exact fun h hrun => ih (step_replaying h hrun.1) hrun.2

theorem start_replaying {myId : Str} (named : myId ≠ []) :
    Replaying py float k (start myId named) :=
  ⟨Nat.zero_le 1, Nat.zero_le _, fun _ _ hd => by cases hd⟩

theorem Replaying.replies_eq {p : Str × Str} (h : Replaying py float (composite p) s)
    {reply reply' : Document} (hr : reply ∈ replies py float p s)
    (hr' : reply' ∈ replies py float p s) : reply = reply' := by
  have hcached : ∀ r ∈ replies py float p s,
      s.transport.dedupSeen (composite p) = some (.reply r) := by
    intro r hmem
    obtain ⟨c, hc, hreplied⟩ := List.mem_filterMap.mp hmem
    cases c with
    | returned d x =>
      rw [Call.replied] at hreplied
      split_ifs at hreplied with hpair
      obtain rfl := Option.some.inj hreplied
      exact h.returned d x hc (hasKey_of_hasPair hpair)
    | _ => cases hreplied
  have hsame := (hcached reply hr).symm.trans (hcached reply' hr')
  exact SeenEntry.reply.inj (Option.some.inj hsame)

end steps

section duplicates

variable (py : PyText) (float : PyFloat)

theorem rpc_duplicates_replay {myId : Str} (named : myId ≠ []) (p : Str × Str)
    (as : List HttpAction) (hserial : SerialRun py float p (start myId named) as) :
    invocations py float p ((start myId named).run py float as) ≤ 1 ∧
      ∀ reply ∈ replies py float p ((start myId named).run py float as),
        ∀ reply' ∈ replies py float p ((start myId named).run py float as), reply = reply' := by
  have h := run_replaying (start_replaying named) hserial
  refine ⟨?_, fun reply hr reply' hr' => h.replies_eq hr hr'⟩
  have hcount : invocations py float p ((start myId named).run py float as) ≤
      ((start myId named).run py float as).invoked.countP (hasKey py float (composite p)) :=
    List.countP_mono_left (fun d _ hd => hasKey_of_hasPair hd)
  have halone := h.alone
  have hinv := h.invoked
  omega

end duplicates

def sampleCall : Document :=
  ⟨[("from".toList, .str ['a']), ("idempotency_key".toList, .str ['K'])], by decide⟩

def sampleReply (n : ℤ) : Document := ⟨[("n".toList, .int n)], by simp [Json.wf, Json.wfFields]⟩

def sampleServer (as : List HttpAction) : HttpServer :=
  (start ['b'] (by decide)).run Queue.plainPy (fun _ => none) as

def inTurn : List HttpAction :=
  [.register ['b'], .rpc sampleCall, .invoke 0 (.reply (sampleReply 1)), .record 0, .rpc sampleCall]

theorem rpc_duplicates_replay_in_turn :
    invocations Queue.plainPy (fun _ => none) (['a'], ['K']) (sampleServer inTurn) ≤ 1 :=
  (rpc_duplicates_replay Queue.plainPy (fun _ => none) (by decide) (['a'], ['K']) inTurn
    (by decide +kernel)).1

def overlapping : List HttpAction :=
  [.register ['b'], .rpc sampleCall, .rpc sampleCall, .invoke 0 (.reply (sampleReply 1)),
    .invoke 1 (.reply (sampleReply 2)), .record 0, .record 1]

theorem overlapping_calls_differ :
    invocations Queue.plainPy (fun _ => none) (['a'], ['K']) (sampleServer overlapping) = 2 ∧
      replies Queue.plainPy (fun _ => none) (['a'], ['K']) (sampleServer overlapping) =
        [sampleReply 1, sampleReply 2] ∧ sampleReply 1 ≠ sampleReply 2 := by
  refine ⟨by decide +kernel, rfl, fun h => ?_⟩
  have hfields := congrArg Document.fields h
  cases hfields

end HttpServer

end TraceMind.Transport
