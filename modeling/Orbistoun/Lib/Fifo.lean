import Mathlib.Data.List.Basic
import Mathlib.Tactic
import Orbistoun.Lib.Machine

/-! # A line of addressed items

Items wait in one line and are collected from its front. A post joins at the back,
unless it coalesces and an item for the same address is waiting, whose place it
takes then. Whatever happens to other addresses, the items posted to addresses
that neither coalesce nor are dropped are collected once each and in the order of
their posts.
-/

namespace Orbistoun.Lib.Fifo

variable {ρ ε : Type*}

def within (K : ρ → Bool) (items : List (ρ × ε)) : List (ρ × ε) := items.filter (fun x => K x.1)

theorem within_append (K : ρ → Bool) (xs ys : List (ρ × ε)) :
    within K (xs ++ ys) = within K xs ++ within K ys := List.filter_append xs ys

variable [DecidableEq ρ]

inductive Op (ρ ε : Type*) where
  | post (coalesce : Bool) (dst : ρ) (item : ε)
  | collect
  | drop (dst : ρ)
  | clear

def replaceFirst (dst : ρ) (item : ε) : List (ρ × ε) → Option (List (ρ × ε))
  | [] => none
  | (r, e) :: rest =>
      if r = dst then some ((r, item) :: rest)
      else (replaceFirst dst item rest).map ((r, e) :: ·)

def join (line : List (ρ × ε)) (coalesce : Bool) (dst : ρ) (item : ε) : List (ρ × ε) :=
  if coalesce then (replaceFirst dst item line).getD (line ++ [(dst, item)])
  else line ++ [(dst, item)]

def line : Machine (List (ρ × ε)) (Op ρ ε) (ρ × ε) where
  step
    | line, .post coalesce dst item => (join line coalesce dst item, [])
    | line, .collect => (line.tail, line.head?.toList)
    | line, .drop dst => (line.filter (fun x => x.1 ≠ dst), [])
    | _, .clear => ([], [])

def posted : List (Op ρ ε) → List (ρ × ε) :=
  List.filterMap fun
    | .post _ dst item => some (dst, item)
    | _ => none

/-- An operation that neither coalesces into an address of `K` nor drops one. -/
def Plain (K : ρ → Bool) : Op ρ ε → Prop
  | .post coalesce dst _ => K dst = true → coalesce = false
  | .collect => True
  | .drop dst => K dst = false
  | .clear => False

theorem replaceFirst_within {K : ρ → Bool} {dst : ρ} {item : ε} (hK : K dst = false)
    {items items' : List (ρ × ε)} (h : replaceFirst dst item items = some items') :
    within K items' = within K items := by
  induction items generalizing items' with
  | nil => simp [replaceFirst] at h
  | cons x rest ih =>
      obtain ⟨r, e⟩ := x
      simp only [replaceFirst] at h
      split at h
      · next hr =>
        cases h
        simp [within, hr, hK]
      · obtain ⟨tail, ht, rfl⟩ := Option.map_eq_some_iff.mp h
        have := ih ht
        simp only [within, List.filter_cons] at this ⊢
        rw [this]

theorem join_within {K : ρ → Bool} (items : List (ρ × ε)) {coalesce : Bool} {dst : ρ} (item : ε)
    (hK : K dst = true → coalesce = false) :
    within K (join items coalesce dst item) = within K items ++ within K [(dst, item)] := by
  unfold join
  split
  · next hc =>
    have hto : K dst = false := by
      by_contra hto
      simp [hK (by simpa using hto)] at hc
    cases hr : replaceFirst dst item items with
    | none => simp [within_append]
    | some items' => simpa [within, hto] using replaceFirst_within hto hr
  · exact within_append K items [(dst, item)]

theorem drop_within {K : ρ → Bool} (items : List (ρ × ε)) {dst : ρ} (hK : K dst = false) :
    within K (items.filter (fun x => x.1 ≠ dst)) = within K items := by
  simp only [within, List.filter_filter]
  refine List.filter_congr (fun x _ => ?_)
  by_cases hx : x.1 = dst <;> simp [hx, hK]

theorem collected_then_waiting {K : ρ → Bool} (ops : List (Op ρ ε)) (items : List (ρ × ε))
    (hK : ∀ op ∈ ops, Plain K op) :
    within K (line.log items ops) ++ within K (line.after items ops) =
      within K items ++ within K (posted ops) := by
  induction ops generalizing items with
  | nil => simp [posted, within]
  | cons op ops ih =>
      have hrest := ih (line.step items op).1 (fun o ho => hK o (List.mem_cons_of_mem _ ho))
      have hop := hK op (List.mem_cons_self ..)
      rw [Machine.log_cons, Machine.after_cons, within_append, List.append_assoc, hrest,
        ← List.append_assoc]
      cases op with
      | post coalesce dst item =>
          have hposted : posted (.post coalesce dst item :: ops) = [(dst, item)] ++ posted ops := rfl
          rw [hposted, within_append, ← List.append_assoc, ← join_within items item hop]
          rfl
      | collect =>
          have hposted : posted (.collect :: ops) = posted ops := rfl
          rw [hposted, ← within_append]
          cases items <;> rfl
      | drop dst =>
          have hposted : posted (.drop dst :: ops) = posted ops := rfl
          rw [hposted, ← drop_within items hop]
          rfl
      | clear => exact hop.elim

/-! ## Addresses that hold one item -/

def addressed (dst : ρ) (items : List (ρ × ε)) : List (ρ × ε) :=
  within (fun r => decide (r = dst)) items

def Fresh (items log : List (ρ × ε)) : Prop :=
  ∀ dst x, (addressed dst items).getLast? = some x → (addressed dst log).getLast? = some x

def Single (C : ρ → Prop) (items : List (ρ × ε)) : Prop :=
  ∀ dst, C dst → (addressed dst items).length ≤ 1

/-- A post that coalesces finds at most one item to replace, and one that does not
goes to no address of `C` that holds an item. -/
def Tidy (C : ρ → Prop) (items : List (ρ × ε)) : Op ρ ε → Prop
  | .post true dst _ => (addressed dst items).length ≤ 1
  | .post false dst _ => C dst → addressed dst items = []
  | _ => True

def Agrees (C : ρ → Prop) : Op ρ ε → Prop
  | .post coalesce dst _ => coalesce = true ↔ C dst
  | _ => True

theorem addressed_append (dst : ρ) (xs ys : List (ρ × ε)) :
    addressed dst (xs ++ ys) = addressed dst xs ++ addressed dst ys := within_append _ xs ys

@[simp] theorem addressed_singleton (dst : ρ) (item : ε) :
    addressed dst [(dst, item)] = [(dst, item)] := by
  simp [addressed, within]

theorem addressed_singleton_of_ne {r dst : ρ} (item : ε) (h : dst ≠ r) :
    addressed r [(dst, item)] = [] := by
  simp [addressed, within, h]

theorem replaceFirst_eq_none {dst : ρ} {item : ε} {items : List (ρ × ε)}
    (h : replaceFirst dst item items = none) : addressed dst items = [] := by
  induction items with
  | nil => rfl
  | cons x rest ih =>
      obtain ⟨r, e⟩ := x
      simp only [replaceFirst] at h
      split at h
      · cases h
      · next hr =>
        have hrest := ih (Option.map_eq_none_iff.mp h)
        simpa [addressed, within, hr] using hrest

theorem replaceFirst_addressed {dst : ρ} {item : ε} {items items' : List (ρ × ε)}
    (h : replaceFirst dst item items = some items') (hone : (addressed dst items).length ≤ 1) :
    addressed dst items' = [(dst, item)] := by
  induction items generalizing items' with
  | nil => simp [replaceFirst] at h
  | cons x rest ih =>
      obtain ⟨r, e⟩ := x
      simp only [replaceFirst] at h
      split at h
      · next hr =>
        cases h
        have hrest : addressed dst rest = [] := by
          simpa [addressed, within, hr] using hone
        have hcons : addressed dst ((r, item) :: rest) = (r, item) :: addressed dst rest := by
          simp [addressed, within, hr]
        rw [hcons, hrest, hr]
      · next hr =>
        obtain ⟨tail, ht, rfl⟩ := Option.map_eq_some_iff.mp h
        have htail := ih ht (by simpa [addressed, within, hr] using hone)
        simpa [addressed, within, hr] using htail

/-- A post leaves every other address as it was. -/
theorem join_addressed_of_ne (items : List (ρ × ε)) (coalesce : Bool) {r dst : ρ} (item : ε)
    (h : dst ≠ r) : addressed r (join items coalesce dst item) = addressed r items := by
  have hjoin : within (fun x => decide (x = r)) (join items coalesce dst item) =
      addressed r items ++ within (fun x => decide (x = r)) [(dst, item)] :=
    join_within items item (by simp [h])
  have hone : within (fun x => decide (x = r)) [(dst, item)] = [] :=
    addressed_singleton_of_ne item h
  rw [hone, List.append_nil] at hjoin
  exact hjoin

theorem join_true_addressed {items : List (ρ × ε)} {dst : ρ} (item : ε)
    (hone : (addressed dst items).length ≤ 1) :
    addressed dst (join items true dst item) = [(dst, item)] := by
  simp only [join, if_true]
  cases hr : replaceFirst dst item items with
  | none => simp [addressed_append, replaceFirst_eq_none hr]
  | some items' => simpa using replaceFirst_addressed hr hone

theorem join_false_addressed (items : List (ρ × ε)) (dst : ρ) (item : ε) :
    addressed dst (join items false dst item) = addressed dst items ++ [(dst, item)] := by
  simp [join, addressed_append]

theorem drop_addressed (items : List (ρ × ε)) (dst : ρ) :
    addressed dst (items.filter (fun x => x.1 ≠ dst)) = [] := by
  simp [addressed, within]

theorem addressed_tail_suffix (dst : ρ) (items : List (ρ × ε)) :
    addressed dst items.tail <:+ addressed dst items :=
  (List.tail_suffix items).filter _

/-- A tidy step keeps what waits last at each address the last one posted there. -/
theorem step_fresh {C : ρ → Prop} {items log : List (ρ × ε)} {op : Op ρ ε}
    (h : Fresh items log) (hop : Tidy C items op) :
    Fresh (line.step items op).1 (log ++ posted [op]) := by
  intro r x hx
  rw [addressed_append]
  cases op with
  | post coalesce dst item =>
      have hposted : posted [Op.post coalesce dst item] = [(dst, item)] := rfl
      have hstep : (line.step items (.post coalesce dst item)).1 =
          join items coalesce dst item := rfl
      rw [hstep] at hx
      rw [hposted]
      by_cases hr : dst = r
      · subst hr
        have hlast : (addressed dst (join items coalesce dst item)).getLast? =
            some (dst, item) := by
          cases coalesce with
          | true => simp [join_true_addressed item hop]
          | false => simp [join_false_addressed]
        rw [hlast] at hx
        simpa using hx
      · rw [join_addressed_of_ne items coalesce item hr] at hx
        rw [addressed_singleton_of_ne item hr, List.append_nil]
        exact h r x hx
  | collect =>
      obtain ⟨front, hfront⟩ := addressed_tail_suffix r items
      have hx' : (addressed r items).getLast? = some x := by
        have htail : (addressed r items.tail).getLast? = some x := hx
        rw [← hfront, List.getLast?_append, htail, Option.some_or]
      simpa [posted, addressed, within] using h r x hx'
  | drop dst =>
      have hstep : (line.step items (.drop dst)).1 = items.filter (fun x => x.1 ≠ dst) := rfl
      rw [hstep] at hx
      by_cases hr : dst = r
      · subst hr
        rw [drop_addressed] at hx
        cases hx
      · have hkept : addressed r (items.filter (fun x => x.1 ≠ dst)) = addressed r items :=
          drop_within items (by simp [hr])
        rw [hkept] at hx
        simpa [posted, addressed, within] using h r x hx
  | clear => cases hx

theorem step_single {C : ρ → Prop} {items : List (ρ × ε)} {op : Op ρ ε}
    (h : Single C items) (hop : Tidy C items op) : Single C (line.step items op).1 := by
  intro r hC
  cases op with
  | post coalesce dst item =>
      show (addressed r (join items coalesce dst item)).length ≤ 1
      by_cases hr : dst = r
      · subst hr
        cases coalesce with
        | true => simp [join_true_addressed item hop]
        | false => simp [join_false_addressed, hop hC]
      · rw [join_addressed_of_ne items coalesce item hr]
        exact h r hC
  | collect => exact (addressed_tail_suffix r items).length_le.trans (h r hC)
  | drop dst =>
      have hsub : List.Sublist (addressed r (items.filter (fun x => x.1 ≠ dst)))
          (addressed r items) := List.filter_sublist.filter _
      exact hsub.length_le.trans (h r hC)
  | clear => exact Nat.zero_le 1

theorem run_fresh {C : ρ → Prop} {items log : List (ρ × ε)} {ops : List (Op ρ ε)}
    (h : Fresh items log) (hops : line.Meets (Tidy C) items ops) :
    Fresh (line.after items ops) (log ++ posted ops) := by
  induction ops generalizing items log with
  | nil => simpa [posted] using h
  | cons op ops ih =>
      have hrest := ih (step_fresh h hops.1) hops.2
      have hposted : posted (op :: ops) = posted [op] ++ posted ops :=
        List.filterMap_append (l := [op])
      rw [hposted, ← List.append_assoc]
      exact hrest

theorem run_single {C : ρ → Prop} {items : List (ρ × ε)} {ops : List (Op ρ ε)}
    (h : Single C items) (hops : line.Meets (Tidy C) items ops) :
    Single C (line.after items ops) :=
  Machine.after_inv_of_meets (fun _ _ hs hop => step_single hs hop) h hops

theorem tidy_of_agrees {C : ρ → Prop} {items : List (ρ × ε)} {op : Op ρ ε}
    (h : Single C items) (hop : Agrees C op) : Tidy C items op := by
  cases op with
  | post coalesce dst item =>
      cases coalesce with
      | true => exact h dst (hop.mp rfl)
      | false =>
          intro hC
          have : false = true := hop.mpr hC
          cases this
  | collect => trivial
  | drop dst => trivial
  | clear => trivial

/-- Posts that coalesce exactly where one item may wait are tidy one after another. -/
theorem meets_tidy {C : ρ → Prop} {items : List (ρ × ε)} {ops : List (Op ρ ε)}
    (h : Single C items) (hops : ∀ op ∈ ops, Agrees C op) : line.Meets (Tidy C) items ops := by
  induction ops generalizing items with
  | nil => trivial
  | cons op ops ih =>
      have hop := tidy_of_agrees h (hops op List.mem_cons_self)
      exact ⟨hop, ih (step_single h hop) (fun o ho => hops o (List.mem_cons_of_mem _ ho))⟩

end Orbistoun.Lib.Fifo
