import Orbistoun.Kernel.Equeue.Invariant

/-! # What a scan does to the ready list

A scan is a chain of visits to the entries it pops off the front. What it pops was
on the list when it began; what it puts back, at the back, are level-triggered
knotes it delivered. Every fact about scans below is one about visits, lifted along
the chain.
-/

namespace Orbistoun.Kernel.Equeue

/-- What a popped entry put out when it was visited. -/
def delivery (ready : Ready) (event : Option PendingEvent) : List Delivery :=
  event.toList.map (ready, ·)

/-- The visits a scan makes: the entries popped, what they put out, the state left. -/
inductive Visits : State → List Ready → List Delivery → State → Prop where
  | done (s : State) : Visits s [] [] s
  | visit {s t : State} {ready : Ready} {rest popped : List Ready} {out : List Delivery}
      (hs : s.ready = ready :: rest)
      (h : Visits (visitReady { s with ready := rest } ready).1 popped out t) :
      Visits s (ready :: popped)
        (delivery ready (visitReady { s with ready := rest } ready).2 ++ out) t

/-- The loop of `scan` visits no more entries than it may, stops at `wanted` events,
and visits something when it is asked for an event and has an entry to visit. -/
theorem scanLoop_visits (wanted visit : Nat) (s : State) (out : List Delivery) :
    ∃ popped new, Visits s popped new (scanLoop wanted visit s out).1 ∧
      (scanLoop wanted visit s out).2 = out ++ new ∧ popped.length ≤ visit ∧
      (out.length ≤ wanted → (out ++ new).length ≤ wanted) ∧
      (out.length < wanted → 0 < visit → s.ready ≠ [] → popped ≠ []) := by
  induction visit generalizing s out with
  | zero => exact ⟨[], [], .done s, by simp [scanLoop]⟩
  | succ visit ih =>
      by_cases hw : out.length < wanted
      · cases hs : s.ready with
        | nil => exact ⟨[], [], by simpa [scanLoop, hw, hs] using Visits.done s, by
            simp [scanLoop, hw, hs]⟩
        | cons ready rest =>
            cases hv : visitReady { s with ready := rest } ready with
            | mk t event =>
                have hloop : scanLoop wanted (visit + 1) s out =
                    scanLoop wanted visit t (out ++ delivery ready event) := by
                  cases event <;> simp [scanLoop, hw, hs, hv, delivery]
                obtain ⟨popped, new, hvis, hout, hlen, hmax, -⟩ :=
                  ih t (out ++ delivery ready event)
                have hchain := Visits.visit hs (by rw [hv]; exact hvis)
                rw [hv] at hchain
                refine ⟨ready :: popped, delivery ready event ++ new, ?_, ?_, ?_, ?_, ?_⟩
                · rw [hloop]
                  exact hchain
                · rw [hloop, hout, List.append_assoc]
                · simpa using hlen
                · intro _
                  rw [← List.append_assoc]
                  refine hmax ?_
                  cases event <;> simp [delivery] <;> omega
                · simp
      · exact ⟨[], [], by simpa [scanLoop, hw] using Visits.done s, by simp [scanLoop, hw],
          by simp, by simp, fun h => absurd h hw⟩

/-! ## One visit -/

@[simp] theorem visitReady_routes (s : State) (ready : Ready) :
    (visitReady s ready).1.routes = s.routes := by
  cases ready with
  | posted route event => rfl
  | knote key =>
      simp only [visitReady]
      split
      · rfl
      · split; · rfl
        split; · rfl
        split; · rfl
        split <;> rfl

/-- A visit leaves the list as it is, or puts the visited knote at its back. -/
theorem visitReady_ready (s : State) (ready : Ready) :
    (visitReady s ready).1.ready = s.ready ∨
      ∃ key, (visitReady s ready).1.ready = s.ready ++ [Ready.knote key] := by
  cases ready with
  | posted route event => exact .inl rfl
  | knote key =>
      simp only [visitReady]
      split
      · exact .inl rfl
      · split; · exact .inl rfl
        split; · exact .inl rfl
        split; · exact .inl rfl
        split
        · exact .inl rfl
        · exact .inr ⟨key, rfl⟩

theorem visitReady_knotes_of_ne {key k : Key} (hne : k ≠ key) (s : State) :
    (visitReady s (.knote k)).1.knotes[key]? = s.knotes[key]? := by
  simp only [visitReady]
  split
  · rfl
  · split; · simp [getElem?_insert_key, hne]
    split; · simp [getElem?_erase_key, hne]
    split; · simp [getElem?_insert_key, hne]
    split <;> simp [push, getElem?_insert_key, hne]

/-- Neither one-shot, clearing nor dispatching. -/
def Knote.level (knote : Knote) : Prop :=
  knote.flags &&& evOneshot = 0 ∧ knote.flags &&& evClear = 0 ∧ knote.flags &&& evDispatch = 0

/-- A level-triggered knote is registered under `key`, fired and enabled. -/
def LevelReady (s : State) (key : Key) : Prop :=
  ∃ knote, s.knotes[key]? = some knote ∧ knote.level ∧ knote.reports

/-- A visit to a level-triggered knote that reports delivers it and leaves it so. -/
theorem visitReady_level {s : State} {key : Key} (h : LevelReady s key) :
    LevelReady (visitReady s (.knote key)).1 key ∧
      (visitReady s (.knote key)).2.isSome = true := by
  obtain ⟨knote, hk, ⟨ho, hc, hd⟩, hf, he⟩ := h
  have hboth : ¬ (knote.flags &&& (evClear ||| evDispatch) ≠ 0) := fun hn => by
    rcases clear_or_dispatch hn with h | h
    · exact h hc
    · exact h hd
  simp only [visitReady, hk, ho, hc, he, hf, hboth]
  simp [push, LevelReady, Knote.level, Knote.reports, ho, hc, hd]

theorem visitReady_levelReady {s : State} {key : Key} (h : LevelReady s key) (ready : Ready) :
    LevelReady (visitReady s ready).1 key := by
  cases ready with
  | posted route event => exact h
  | knote k =>
      by_cases hne : k = key
      · subst hne
        exact (visitReady_level h).1
      · rw [LevelReady, visitReady_knotes_of_ne hne]
        exact h

/-! ## Chains of visits -/

theorem Visits.ready_eq {s t : State} {popped : List Ready} {out : List Delivery}
    (h : Visits s popped out t) (hlen : popped.length ≤ s.ready.length) :
    ∃ rest back, s.ready = popped ++ rest ∧ t.ready = rest ++ back ∧
      ∀ r ∈ back, ∃ key, r = .knote key := by
  induction h with
  | done s => exact ⟨s.ready, [], by simp⟩
  | @visit s t ready rest popped out hs _ ih =>
      simp only [hs, List.length_cons, Nat.add_le_add_iff_right] at hlen
      obtain ⟨requeued, hreq, hk⟩ : ∃ requeued,
          (visitReady { s with ready := rest } ready).1.ready = rest ++ requeued ∧
            ∀ r ∈ requeued, ∃ key, r = .knote key := by
        rcases visitReady_ready { s with ready := rest } ready with heq | ⟨key, heq⟩
        · exact ⟨[], by simpa using heq, by simp⟩
        · exact ⟨[.knote key], heq, fun r hr => ⟨key, by simpa using hr⟩⟩
      obtain ⟨rest', back, hrest, hback, hkb⟩ := ih (by rw [hreq, List.length_append]; omega)
      -- The chain pops no further than the list it began with.
      rw [hreq] at hrest
      obtain ⟨extra, hextra, hrest'⟩ | ⟨left, hleft, hrest'⟩ := List.append_eq_append_iff.mp hrest
      · have hnil : extra = [] := by
          have := congrArg List.length hextra
          simp only [List.length_append] at this
          exact List.length_eq_zero_iff.mp (by omega)
        subst hnil
        refine ⟨[], requeued ++ back, by simp [hs, hextra], ?_, ?_⟩
        · simp at hrest'
          simp [hback, hrest']
        · intro r hr
          exact (List.mem_append.mp hr).elim (hk r) (hkb r)
      · refine ⟨left, requeued ++ back, by simp [hs, hleft], ?_, ?_⟩
        · simp [hback, hrest']
        · intro r hr
          exact (List.mem_append.mp hr).elim (hk r) (hkb r)

theorem Visits.routes_eq {s t : State} {popped : List Ready} {out : List Delivery}
    (h : Visits s popped out t) : t.routes = s.routes := by
  induction h with
  | done s => rfl
  | visit hs _ ih => simpa using ih

/-- Each popped entry puts out at most one event, under itself. -/
theorem Visits.entries_sublist {s t : State} {popped : List Ready} {out : List Delivery}
    (h : Visits s popped out t) : (out.map Prod.fst).Sublist popped := by
  induction h with
  | done s => simp
  | @visit s t ready rest popped out hs _ ih =>
      cases hv : (visitReady { s with ready := rest } ready).2 with
      | none => simpa [delivery] using ih.cons ready
      | some event => simpa [delivery] using ih

/-- A reading of the entries that every visit puts out as it stood on the list, in
the states of the chain, is read off what the chain put out. -/
theorem Visits.filterMap_eq {β : Type} {pick : Ready → Option β} {got : Delivery → Option β}
    {G : State → Prop}
    (hG : ∀ s ready, G s → G (visitReady s ready).1)
    (hgot : ∀ s ready, G s →
      (delivery ready (visitReady s ready).2).filterMap got = [ready].filterMap pick)
    (hrest : ∀ s rest, G s → G { s with ready := rest })
    {s t : State} {popped : List Ready} {out : List Delivery} (h : Visits s popped out t)
    (hs : G s) : out.filterMap got = popped.filterMap pick := by
  induction h with
  | done s => rfl
  | @visit s t ready rest popped out _ _ ih =>
      have hs' := hrest s rest hs
      rw [List.filterMap_append, hgot _ ready hs', ih (hG _ ready hs'), ← List.filterMap_append,
        List.singleton_append]

end Orbistoun.Kernel.Equeue
