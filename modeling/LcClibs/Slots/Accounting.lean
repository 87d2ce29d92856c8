import Mathlib
import LcClibs.Lib.Runs
import LcClibs.Slots.Sequences

namespace LcClibs.Slots.Accounting

open Platform Memory.Managed Lib.Coupling Lib.Runs Slots.Macros Slots.Contents Slots.Sequences

section Ledger

variable {α : Type} [DecidableEq α]

abbrev Ledger (α : Type) := α → Int

abbrev LedgerM (α : Type) := StateT (Ledger α) (Except Stop)

def note (zero x : α) (sign : Int) (ledger : Ledger α) : Ledger α := fun y =>
  if y ≠ zero ∧ y = x then ledger y + sign else ledger y

/-- The functions of an array of counted references: a copy takes one, a destructor gives one
back, and there is none without a model. -/
def counting (zero : α) : UtIcd (LedgerM α) α where
  init := none
  copy := some fun x => do
    modify (note zero x 1)
    return x
  dtor := some fun x => modify (note zero x (-1))
  zero := zero

def plenty (_ : Nat) : LedgerM α Unit := return ()

/-- The ledger with the references to some elements entered, or taken out of it. -/
def enter (zero : α) (sign : Int) (xs : List α) (ledger : Ledger α) : Ledger α := fun y =>
  if y ≠ zero then ledger y + sign * xs.count y else ledger y

theorem enter_nil (zero : α) (sign : Int) (ledger : Ledger α) :
    enter zero sign [] ledger = ledger := by
  funext x
  simp [enter]

theorem enter_note (zero x : α) (sign : Int) (xs : List α) (ledger : Ledger α) :
    enter zero sign xs (note zero x sign ledger) = enter zero sign (x :: xs) ledger := by
  funext y
  rw [enter, enter, note]
  by_cases hy : y = zero
  · simp [hy]
  · by_cases hyx : y = x
    · subst hyx
      simp only [hy, not_false_eq_true, ne_eq, and_self, if_true, List.count_cons_self]
      push_cast
      ring
    · simp [hy, hyx, List.count_cons_of_ne (Ne.symm hyx)]

theorem destroyAll_run (zero : α) (xs : List α) (ledger : Ledger α) :
    destroyAll (counting zero) xs ledger = .ok ((), enter zero (-1) xs ledger) := by
  show (xs.forM fun x => (modify (note zero x (-1)) : LedgerM α Unit)) ledger = _
  induction xs generalizing ledger with
  | nil => rw [enter_nil]; rfl
  | cons x xs ih =>
    show ((modify (note zero x (-1)) : LedgerM α PUnit) >>= fun _ => xs.forM _) ledger = _
    rw [step_modify, ih, enter_note]

theorem copyAll_run (zero : α) (xs : List α) (ledger : Ledger α) :
    xs.mapM (copyElement (counting zero)) ledger = .ok (xs, enter zero 1 xs ledger) := by
  induction xs generalizing ledger with
  | nil => rw [enter_nil]; rfl
  | cons x xs ih =>
    have hcopy : copyElement (counting zero) x ledger = .ok (x, note zero x 1 ledger) := rfl
    rw [List.mapM_cons, step_ok hcopy, step_ok (ih _), enter_note]
    rfl

theorem initAll_run (zero : α) (count : Nat) (ledger : Ledger α) :
    initAll (counting zero) count ledger = .ok (List.replicate count zero, ledger) := by
  induction count with
  | zero => rfl
  | succ count ih =>
    have hinit : initElement (counting zero) ledger = .ok (zero, ledger) := rfl
    rw [initAll, step_ok hinit, step_ok ih]
    rfl

theorem enter_append (zero : α) (sign : Int) (xs ys : List α) (ledger : Ledger α) :
    enter zero sign (xs ++ ys) ledger = enter zero sign ys (enter zero sign xs ledger) := by
  funext y
  rw [enter, enter, enter]
  split_ifs
  · rw [List.count_append]
    push_cast
    ring
  · rfl

theorem enter_cancel (zero : α) (xs : List α) (ledger : Ledger α) :
    enter zero (-1) xs (enter zero 1 xs ledger) = ledger := by
  funext y
  rw [enter, enter]
  split_ifs
  · ring
  · rfl

theorem enter_perm (zero : α) (sign : Int) {xs ys : List α} (h : xs.Perm ys) (ledger : Ledger α) :
    enter zero sign xs ledger = enter zero sign ys ledger := by
  funext y
  rw [enter, enter, h.count_eq]

theorem enter_zeros (zero : α) (sign : Int) (count : Nat) (ledger : Ledger α) :
    enter zero sign (List.replicate count zero) ledger = ledger := by
  funext y
  rw [enter]
  split_ifs with hy
  · rw [List.count_replicate, if_neg (by simpa using Ne.symm hy)]
    simp
  · rfl

end Ledger

section Balance

variable {α : Type} [DecidableEq α] {r : Elements α}

omit [DecidableEq α] in
theorem reserve_run (count : Nat) (hsmall : r.1.length + count ≤ 2 ^ 31) (hn : r.2 < 2 ^ 32)
    (ledger : Ledger α) :
    ∃ n, Contents.reserve plenty count r ledger = .ok ((r.1, n), ledger) ∧ n < 2 ^ 32 := by
  rw [Contents.reserve]
  split_ifs with hmore
  · obtain ⟨n, -, hrun, -, -, hlt⟩ := utarrayReserve_ok hsmall hn
    rw [hrun]
    exact ⟨n, rfl, hlt⟩
  · exact ⟨r.2, rfl, hn⟩

/-- The references that are on the ledger besides those of the array. -/
def Settles (zero : α) (x : LedgerM α (Elements α)) (r : Elements α) (len : Nat) : Prop :=
  ∀ ledger, ∃ r', x (enter zero 1 r.1 ledger) = .ok (r', enter zero 1 r'.1 ledger) ∧
    r'.1.length = len ∧ r'.2 < 2 ^ 32

theorem shed_settles (zero : α) {kept gone : List α} (hperm : r.1.Perm (kept ++ gone))
    (hn : r.2 < 2 ^ 32) :
    Settles zero (do destroyAll (counting zero) gone; return (kept, r.2)) r kept.length := by
  intro ledger
  rw [step_ok (destroyAll_run zero _ _), enter_perm zero 1 hperm, enter_append, enter_cancel]
  exact ⟨(kept, r.2), rfl, rfl, hn⟩

theorem resize_settles (zero : α) (num : Nat) (hsmall : num ≤ 2 ^ 31) (hn : r.2 < 2 ^ 32) :
    Settles zero (Contents.resize (counting zero) plenty num r) r num := by
  rw [Contents.resize]
  split_ifs with hgt hlt
  · have hperm : r.1.Perm (r.1.take num ++ r.1.drop num) := by rw [List.take_append_drop]
    have h := shed_settles zero hperm hn
    rwa [List.length_take_of_le hgt.le] at h
  · intro ledger
    obtain ⟨n, hrun, hlt'⟩ := reserve_run (num - r.1.length) (by omega) hn
      (enter zero 1 r.1 ledger)
    rw [step_ok hrun, step_ok (initAll_run zero _ _)]
    refine ⟨(r.1 ++ List.replicate (num - r.1.length) zero, n), ?_, ?_, hlt'⟩
    · rw [enter_append, enter_zeros]
      rfl
    · simp only [List.length_append, List.length_replicate]
      omega
  · exact fun ledger => ⟨r, rfl, by omega, hn⟩

theorem inserta_settles (zero : α) (ws : List α) (j : Nat) (hn : r.2 < 2 ^ 32)
    (hsmall : max r.1.length j + ws.length ≤ 2 ^ 31) :
    Settles zero (Contents.inserta (counting zero) plenty ws j r) r
      (if ws.length = 0 then r.1.length else max r.1.length j + ws.length) := by
  intro ledger
  rw [Contents.inserta]
  by_cases h0 : ws.length = 0
  · rw [if_pos h0, if_pos h0]
    exact ⟨r, rfl, rfl, hn⟩
  · rw [if_neg h0, if_neg h0]
    obtain ⟨r1, hrun1, hlen1, hn1⟩ : ∃ r1 : Elements α,
        (if j > r.1.length then Contents.resize (counting zero) plenty j r else pure r)
          (enter zero 1 r.1 ledger) = .ok (r1, enter zero 1 r1.1 ledger) ∧
        r1.1.length = max r.1.length j ∧ r1.2 < 2 ^ 32 := by
      split_ifs with hgt
      · obtain ⟨r1, hrun, hlen, hn1⟩ := resize_settles zero j (by omega) hn ledger
        exact ⟨r1, hrun, by rw [hlen]; omega, hn1⟩
      · exact ⟨r, rfl, by omega, hn⟩
    obtain ⟨n, hrun2, hn2⟩ := reserve_run ws.length (by omega) hn1
      (enter zero 1 r1.1 ledger)
    rw [step_ok hrun1, step_ok hrun2, step_ok (copyAll_run zero ws _)]
    refine ⟨(r1.1.take j ++ ws ++ r1.1.drop j, n), ?_, ?_, hn2⟩
    · have hperm : (r1.1.take j ++ ws ++ r1.1.drop j).Perm (r1.1 ++ ws) := by
        rw [List.append_assoc]
        refine (List.perm_append_comm.append_left _).trans ?_
        rw [← List.append_assoc, List.take_append_drop]
      rw [enter_perm zero 1 hperm, enter_append]
      rfl
    · simp only [List.length_append, List.length_take, List.length_drop]
      omega

theorem call_settles (zero : α) (c : ArrayCall α) (hp : c.Proper r.1.length) (hn : r.2 < 2 ^ 32) :
    Settles zero (c.onList (counting zero) plenty r) r (c.lengthAfter r.1.length) := by
  cases c with
  | reserve count =>
    intro ledger
    obtain ⟨n, hrun, hn'⟩ := reserve_run count hp hn (enter zero 1 r.1 ledger)
    exact ⟨(r.1, n), hrun, rfl, hn'⟩
  | pushBack p =>
    have hsmall : r.1.length + 1 ≤ 2 ^ 31 := hp
    have h := inserta_settles zero [p] r.1.length hn
      (by rw [max_self]; exact hsmall)
    rwa [if_neg (show ¬[p].length = 0 by simp), max_self] at h
  | popBack =>
    have hperm : r.1.Perm (r.1.dropLast ++ r.1.drop (r.1.length - 1)) := by
      rw [List.dropLast_eq_take, List.take_append_drop]
    have h := shed_settles zero hperm hn
    rwa [List.length_dropLast] at h
  | extendBack =>
    intro ledger
    obtain ⟨n, hrun, hn'⟩ := reserve_run 1 hp hn (enter zero 1 r.1 ledger)
    refine ⟨(r.1 ++ [zero], n), ?_, List.length_append, hn'⟩
    show Contents.extendBack (counting zero) plenty r (enter zero 1 r.1 ledger) = _
    rw [Contents.extendBack, step_ok hrun, enter_append,
      show [zero] = List.replicate 1 zero from rfl, enter_zeros]
    rfl
  | insert p j =>
    have h := inserta_settles zero [p] j hn hp
    rwa [if_neg (show ¬[p].length = 0 by simp)] at h
  | inserta w j => exact inserta_settles zero (elements w) j hn hp.2
  | concatSelf =>
    have h := inserta_settles zero r.1 r.1.length hn
      (by rw [max_self]; exact hp)
    rw [max_self] at h
    split_ifs at h with h0
    · intro ledger
      obtain ⟨r', hrun, hlen, hn'⟩ := h ledger
      exact ⟨r', hrun, hlen.trans (show r.1.length = r.1.length + r.1.length by omega), hn'⟩
    · exact h
  | resize num => exact resize_settles zero num hp hn
  | erase pos len =>
    have hin : pos + len ≤ r.1.length := hp
    have hperm : r.1.Perm (r.1.take pos ++ r.1.drop (pos + len) ++ (r.1.drop pos).take len) := by
      have hsplit : r.1.take pos ++ ((r.1.drop pos).take len ++ r.1.drop (pos + len)) = r.1 := by
        rw [← List.drop_drop, List.take_append_drop, List.take_append_drop]
      have hcomm : ((r.1.drop pos).take len ++ r.1.drop (pos + len)).Perm
          (r.1.drop (pos + len) ++ (r.1.drop pos).take len) := List.perm_append_comm
      have h := hcomm.append_left (r.1.take pos)
      rwa [hsplit, ← List.append_assoc] at h
    have h := shed_settles zero hperm hn
    rw [List.length_append, List.length_take_of_le (by omega), List.length_drop] at h
    rw [show (ArrayCall.erase pos len : ArrayCall α).lengthAfter r.1.length =
      pos + (r.1.length - (pos + len)) by show r.1.length - len = _; omega]
    exact h
  | clear => exact shed_settles zero (List.Perm.refl _) hn

/-- After a run the array holds one reference for each of its elements, and the ledger is
otherwise as it was. -/
theorem run_settles (zero : α) (calls : List (ArrayCall α)) (hp : ProperCalls calls r.1.length)
    (hn : r.2 < 2 ^ 32) (ledger : Ledger α) :
    ∃ r' : Elements α, runList (counting zero) plenty calls r (enter zero 1 r.1 ledger) =
      .ok (r', enter zero 1 r'.1 ledger) := by
  induction calls generalizing r with
  | nil => exact ⟨r, rfl⟩
  | cons c calls ih =>
    obtain ⟨r1, hrun, hlen, hn1⟩ := call_settles zero c hp.1 hn ledger
    obtain ⟨r2, hrun2⟩ := ih (hlen ▸ hp.2) hn1
    exact ⟨r2, by rw [runList, step_ok hrun, hrun2]⟩

/-- Through any run of calls an array holds exactly one reference for each place that an element
has in it, never touches a slot that is not there or not filled, and gives all of them back
when it is done. -/
theorem array_balances (zero : α) (calls : List (ArrayCall α)) (hp : ProperCalls calls 0)
    (ledger : Ledger α) :
    ∃ a ledger', runArray (counting zero) plenty calls utarrayInit ledger = .ok (a, ledger') ∧
      Represents a (elements a, a.n) ∧
      (∀ x ≠ zero, ledger' x = ledger x + (elements a).count x) ∧
      utarrayDone (counting zero) a ledger' = .ok ({ a with n := 0, d := [] }, ledger) := by
  obtain ⟨r', hrun⟩ := run_settles zero (r := ([], 0)) calls hp (Nat.two_pow_pos 32) ledger
  rw [enter_nil] at hrun
  obtain ⟨e, -, herr⟩ | ⟨a, b, s', ha, hb, hrep⟩ :=
    (run_coupled (counting zero) plenty calls init_represents hp).outcome ledger
  · rw [hrun] at herr
    cases herr
  · rw [hrun, Except.ok.injEq, Prod.mk.injEq] at hb
    obtain ⟨rfl, rfl⟩ := hb
    have hel := elements_of_represents hrep
    refine ⟨a, _, ha, ?_, fun x hx => ?_, ?_⟩
    · rw [hel, hrep.n]
      exact hrep
    · rw [hel, enter, if_pos hx, one_mul]
    · rw [done_eq hrep, step_ok (destroyAll_run zero _ _), enter_cancel]
      rfl

def demoOther : UtArray Nat := ⟨2, 8, [some 5, some 6, none, none, none, none, none, none]⟩

def demoArrayCalls : List (ArrayCall Nat) :=
  [.pushBack 3, .insert 4 3, .inserta demoOther 1, .concatSelf, .erase 2 3, .popBack, .resize 5,
    .extendBack]

theorem array_balances_demo :
    ∃ a ledger', runArray (counting 0) plenty demoArrayCalls utarrayInit (fun _ => 0) =
        .ok (a, ledger') ∧ Represents a (elements a, a.n) ∧
      (∀ x ≠ 0, ledger' x = 0 + (elements a).count x) ∧
      utarrayDone (counting 0) a ledger' = .ok ({ a with n := 0, d := [] }, fun _ => 0) :=
  array_balances 0 demoArrayCalls (by decide) fun _ => 0

end Balance

end LcClibs.Slots.Accounting
