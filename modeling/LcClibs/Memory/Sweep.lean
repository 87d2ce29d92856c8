import Mathlib
import LcClibs.Lib.Cascade
import LcClibs.Memory.Safety

namespace LcClibs.Memory.Sweep

open Platform Lib.Runs Lib.Cascade Memory.Managed Memory.Safety

section Model

variable (releases : Nat → List (Nat × Bool))

/-- `_mgn_mem_release` with its release flag set. The callback of a block makes the releases
of that block, one after the other, each with a callback or null. -/
def releaseWith : Nat → Nat → Bool → Pool → Except Stop Pool
  | 0, _, _, _ => .error .outOfFuel
  | fuel + 1, originMem, cb, pool =>
    match pool.find originMem with
    | none => .ok pool
    | some x =>
      if x.r = 0 then .ok pool
      else do
        let pool := pool.update x.serial fun x => { x with r := x.r - 1, cb := cb }
        if x.r - 1 = 0 then
          let pool ←
            if cb then
              (releases x.serial).foldlM (fun pool a => releaseWith fuel a.1 a.2 pool)
                (pool.note [.callback x.serial (x.serial ∈ pool.serials)])
            else pure pool
          pool.free x.serial false
        else return pool

/-- A call of `mgn_mem_release` or `mgn_mem_release_w_cb` in a callback. -/
def releaseCall (pool : Pool) (a : Nat × Bool) : Except Stop Pool :=
  releaseWith releases (pool.retained + 1) a.1 a.2 pool

def callbackWith (pool : Pool) (serial : Nat) : Except Stop Pool :=
  (releases serial).foldlM (releaseCall releases)
    (pool.note [.callback serial (serial ∈ pool.serials)])

def unused (pool : Pool) : List Record := pool.records.filter fun x => x.r = 0

def sweepWith (pool : Pool) (mem : Nat) : Except Stop Pool :=
  match pool.find mem with
  | none => .ok pool
  | some x =>
    if x.r = 0 then do
      let pool ← if x.cb then callbackWith releases pool x.serial else pure pool
      pool.free x.serial false
    else .ok pool

/-- `mgn_mem_release_unused` with room for any number of addresses in `free_m`. The fuel
bounds the number of batches. -/
def releaseUnusedWith (batch : Nat) : Nat → Pool → Except Stop Pool
  | 0, _ => .error .outOfFuel
  | fuel + 1, pool => do
    let mems := ((unused pool).map Record.m).take batch
    let pool ← mems.foldlM (sweepWith releases) pool
    if mems.length ≥ batch then releaseUnusedWith batch fuel pool else return pool

def calledIn (log : List Event) : List Nat :=
  log.filterMap fun e =>
    match e with
    | .callback n _ => some n
    | _ => none

def targets (serial : Nat) : List Nat := (releases serial).map Prod.fst

/-- The block falls when the callbacks that were called release it as often as it is
retained: with count 0 at once, and otherwise by blocks that have fallen before. -/
def BlockFalls (pool : Pool) (called : List Nat) : Record → Prop :=
  Falls (· ∈ pool.records) Record.m Record.r (fun x => targets releases x.serial)
    fun x => x.serial ∈ called

/-- A block that was freed after its callback, where it has one, was called once. -/
structure FreedOnce (x : Record) (log : List Event) : Prop where
  order : List.Sublist ((if x.cb then [.callback x.serial true] else []) ++
    [.removed x.serial 0 false, .freedMemory x.serial, .freedRecord x.serial]) log
  calls : log.count (.callback x.serial true) = if x.cb then 1 else 0
  memory : log.count (.freedMemory x.serial) = 1
  record : log.count (.freedRecord x.serial) = 1

/-- What `mgn_mem_release_unused` leaves: no block with count 0; those there were freed, and
of the others those that the releases of callbacks have brought to 0. -/
structure Complete (pool pool' : Pool) : Prop where
  none_left : ∀ y ∈ pool'.records, 0 < y.r
  unused_freed : ∀ x ∈ pool.records, x.r = 0 → x.serial ∉ pool'.serials ∧ FreedOnce x pool'.log
  freed_iff : ∀ x ∈ pool.records,
    x.serial ∉ pool'.serials ↔ BlockFalls releases pool (calledIn pool'.log) x
  kept : ∀ y ∈ pool'.records, ∃ x ∈ pool.records, y.serial = x.serial ∧ y.m = x.m ∧ y.s = x.s ∧
    y.bytes = x.bytes ∧ y.r = x.r - given (targets releases) (calledIn pool'.log) x.m

end Model

section Instance

variable (owned : Nat → List Nat)

def ownedReleases (serial : Nat) : List (Nat × Bool) := (owned serial).map fun mem => (mem, true)

theorem releaseWith_owned (fuel mem : Nat) (cb : Bool) (pool : Pool) :
    releaseWith (ownedReleases owned) fuel mem cb pool =
      mgnMemReleaseImpl owned fuel mem true cb pool := by
  induction fuel generalizing mem cb pool with
  | zero => rfl
  | succ fuel ih =>
    have hfold : ∀ serial p, (ownedReleases owned serial).foldlM
        (fun pool a => releaseWith (ownedReleases owned) fuel a.1 a.2 pool) p =
          (owned serial).foldlM
            (fun pool mem => mgnMemReleaseImpl owned fuel mem true true pool) p := by
      intro serial p
      rw [ownedReleases, List.foldlM_map]
      simp only [ih]
    rw [releaseWith, mgnMemReleaseImpl]
    cases pool.find mem with
    | none => rfl
    | some x => simp only [hfold, and_true]

theorem sweepWith_owned : sweepWith (ownedReleases owned) = sweep owned := by
  funext pool mem
  have hcall : ∀ serial, callbackWith (ownedReleases owned) pool serial =
      callback owned pool serial := by
    intro serial
    rw [callbackWith, callback, ownedReleases, List.foldlM_map]
    congr 1
    funext p mem
    rw [releaseCall, releaseWith_owned, mgnMemReleaseWCb]
  rw [sweepWith, sweep]
  cases pool.find mem with
  | none => rfl
  | some x => simp only [hcall]

/-- The sweep of the program is the one with sixteen addresses. -/
theorem releaseUnusedWith_owned (fuel : Nat) (pool : Pool) :
    releaseUnusedWith (ownedReleases owned) batchSize fuel pool =
      releaseUnusedLoop owned fuel pool := by
  induction fuel generalizing pool with
  | zero => rfl
  | succ fuel ih =>
    simp only [releaseUnusedWith, releaseUnusedLoop, sweepWith_owned, ih]
    rfl

end Instance

section Unused

variable {releases : Nat → List (Nat × Bool)} {D : Set Nat} {pool p p' : Pool} {x : Record}
  {n : Nat}

/-- A step that leaves the blocks with count 0 as they are, brings none, and notes events of
blocks that are in the pool. -/
structure Quiet (pool pool' : Pool) : Prop where
  unused : unused pool' = unused pool
  serials : pool'.serials ⊆ pool.serials
  log : ∃ events, pool'.log = pool.log ++ events ∧ ∀ e ∈ events, eventSerial e ∈ pool.serials

theorem Quiet.refl (pool : Pool) : Quiet pool pool :=
  ⟨rfl, List.Subset.refl _, [], (List.append_nil _).symm, nofun⟩

theorem Quiet.trans (h : Quiet pool p) (h' : Quiet p p') : Quiet pool p' := by
  obtain ⟨events, hlog, he⟩ := h.log
  obtain ⟨events', hlog', he'⟩ := h'.log
  refine ⟨h'.unused.trans h.unused, fun n hn => h.serials (h'.serials hn), events ++ events',
    by rw [hlog', hlog, List.append_assoc], fun e hmem => ?_⟩
  obtain hmem | hmem := List.mem_append.mp hmem
  · exact he e hmem
  · exact h.serials (he' e hmem)

theorem filter_update {l : List Record} {f : Record → Record}
    (h : ∀ y ∈ l, y.serial = n → y.r ≠ 0 ∧ (f y).r ≠ 0) :
    ((l.map fun y => if y.serial = n then f y else y).filter fun y => y.r = 0) =
      l.filter fun y => y.r = 0 := by
  induction l with
  | nil => rfl
  | cons y l ih =>
    have hl := ih fun z hz => h z (List.mem_cons_of_mem _ hz)
    rw [List.map_cons, List.filter_cons, List.filter_cons, hl]
    by_cases hn : y.serial = n
    · obtain ⟨h0, hf0⟩ := h y List.mem_cons_self hn
      simp [hn, h0, hf0]
    · simp [hn]

theorem filter_died {l : List Record} {f : Record → Record} (hs : ∀ y, (f y).serial = y.serial)
    (h : ∀ y ∈ l, y.serial = n → y.r ≠ 0) :
    ((l.map fun y => if y.serial = n then f y else y).filter fun y => y.r = 0).filter
      (fun y => y.serial ≠ n) = l.filter fun y => y.r = 0 := by
  induction l with
  | nil => rfl
  | cons y l ih =>
    have hl := ih fun z hz => h z (List.mem_cons_of_mem _ hz)
    rw [List.map_cons, List.filter_cons]
    by_cases hn : y.serial = n
    · have h0 := h y List.mem_cons_self hn
      rw [if_pos hn, List.filter_cons_of_neg (a := y) (by simpa using h0), ← hl]
      by_cases hf : (f y).r = 0
      · rw [if_pos (by simpa using hf), List.filter_cons_of_neg (by simp [hs, hn])]
      · rw [if_neg (by simpa using hf)]
    · rw [if_neg hn, List.filter_cons, ← hl]
      by_cases h0 : y.r = 0
      · rw [if_pos (by simpa using h0), List.filter_cons_of_pos (by simpa using hn),
          if_pos (by simpa using h0)]
      · rw [if_neg (by simpa using h0), if_neg (by simpa using h0)]

theorem unused_free {emptying : Bool} (h : p.free n emptying = .ok p') :
    unused p' = (unused p).filter fun y => y.serial ≠ n := by
  unfold Pool.free at h
  split at h
  · cases h
    simp only [unused, Pool.note, Pool.delete, List.filter_filter]
    congr 1
    funext y
    rw [Bool.and_comm]
  · cases h

theorem free_log {emptying : Bool} (h : p.free n emptying = .ok p') :
    ∃ y ∈ p.records, y.serial = n ∧ p'.records = (p.delete n).records ∧ p'.log =
      p.log ++ [.removed n y.r emptying, .freedMemory n, .freedRecord n] := by
  unfold Pool.free at h
  split at h
  · rename_i y hy
    cases h
    exact ⟨y, List.mem_of_find?_eq_some hy, by simpa using List.find?_some hy, rfl, rfl⟩
  · cases h

def giveUp (pool : Pool) (x : Record) (cb : Bool) : Pool :=
  pool.update x.serial fun y => { y with r := y.r - 1, cb := cb }

theorem giveUp_serials (cb : Bool) : (giveUp pool x cb).serials = pool.serials :=
  serials_update fun _ => rfl

end Unused

section Tally

variable {releases : Nat → List (Nat × Bool)} {D : Set Nat} {start p p' : Pool} {x y : Record}
  {mem n : Nat} {pend : List Nat} {cb : Bool}

theorem calledIn_append (log events : List Event) :
    calledIn (log ++ events) = calledIn log ++ calledIn events := List.filterMap_append

theorem calledIn_nodup {log : List Event} (h : Safe log) : (calledIn log).Nodup := by
  rw [List.nodup_iff_count_le_one]
  intro n
  refine le_trans (le_of_eq ?_) (h.callback_once n)
  rw [calledIn, List.count_filterMap, List.count_eq_countP]
  apply List.countP_congr
  intro e he
  cases e with
  | callback k inPool =>
    cases inPool with
    | true => simp
    | false => exact absurd he (h.callback_in k)
  | _ => simp

theorem given_records (hs : start.serials.Nodup) {called : List Nat} (hc : called.Nodup)
    (hsub : called ⊆ start.serials) (a : Nat) :
    given (fun x => targets releases x.serial) (start.records.filter fun x => x.serial ∈ called) a =
      given (targets releases) called a := by
  have hperm : ((start.records.filter fun x => x.serial ∈ called).map Record.serial).Perm
      called := by
    rw [List.perm_ext_iff_of_nodup ((List.filter_sublist.map Record.serial).nodup hs) hc]
    intro n
    simp only [List.mem_map, List.mem_filter, decide_eq_true_eq]
    constructor
    · rintro ⟨x, ⟨-, hx⟩, rfl⟩
      exact hx
    · intro hn
      obtain ⟨x, hx, rfl⟩ := List.mem_map.mp (hsub hn)
      exact ⟨x, ⟨hx, hn⟩, rfl⟩
  rw [given, given, ← (hperm.map fun n => (targets releases n).count a).sum_eq, List.map_map]
  rfl

/-- What the counts of a pool owe to the callbacks since the start, where the releases of the
addresses in `pend` are still to come. -/
structure Tally (releases : Nat → List (Nat × Bool)) (start : Pool) (pend : List Nat)
    (p : Pool) : Prop where
  kept : ∀ y ∈ p.records, ∃ x ∈ start.records, y.serial = x.serial ∧ y.m = x.m ∧ y.s = x.s ∧
    y.bytes = x.bytes ∧
    y.r = x.r - (given (targets releases) (calledIn p.log) x.m - pend.count x.m)
  pending : ∀ a, pend.count a ≤ given (targets releases) (calledIn p.log) a
  called_in : calledIn p.log ⊆ start.serials
  falls : ∀ x ∈ start.records, x.serial ∈ calledIn p.log ∨ x.serial ∉ p.serials →
    BlockFalls releases start (calledIn p.log) x

theorem Tally.refl (h : start.log = []) : Tally releases start [] start where
  kept y hy := ⟨y, hy, rfl, rfl, rfl, rfl, by rw [h]; rfl⟩
  pending a := Nat.zero_le _
  called_in := by rw [h]; exact List.nil_subset _
  falls x hx hc := by
    rw [h] at hc
    obtain hc | hc := hc
    · cases hc
    · exact absurd (serial_mem hx) hc

theorem Tally.falls_of_zero (h : Tally releases start pend p) (hs : Inv ∅ start) (hi : Inv D p)
    (hy : y ∈ p.records) (h0 : y.r = 0) (hx : x ∈ start.records) (he : y.serial = x.serial) :
    BlockFalls releases start (calledIn p.log) x := by
  obtain ⟨x', hx', hser, -, -, -, hr⟩ := h.kept y hy
  obtain rfl := hs.eq_of_serial hx' hx (hser.symm.trans he)
  refine .intro (start.records.filter fun z => z.serial ∈ calledIn p.log) hx
    (List.filter_sublist.nodup hs.serials_nodup.of_map) (fun z hz => ?_) (fun z hz => ?_) ?_
  · simpa using (List.mem_filter.mp hz).2
  · obtain ⟨hz, hc⟩ := List.mem_filter.mp hz
    exact h.falls z hz (Or.inl (by simpa using hc))
  · rw [given_records hs.serials_nodup (calledIn_nodup hi.safe) h.called_in]
    omega

theorem Tally.skip (h : Tally releases start (mem :: pend) p)
    (h0 : ∀ y ∈ p.records, y.m = mem → y.r = 0) : Tally releases start pend p where
  kept y hy := by
    obtain ⟨x, hx, hser, hm, hs, hb, hr⟩ := h.kept y hy
    refine ⟨x, hx, hser, hm, hs, hb, ?_⟩
    by_cases he : mem = x.m
    · have := h0 y hy (hm.trans he.symm)
      rw [he, List.count_cons_self] at hr
      omega
    · rwa [List.count_cons_of_ne he] at hr
  pending a := le_trans List.count_le_count_cons (h.pending a)
  called_in := h.called_in
  falls := h.falls

theorem Tally.giveUp (h : Tally releases start (x.m :: pend) p) (hi : Inv D p)
    (hx : x ∈ p.records) : Tally releases start pend (giveUp p x cb) where
  kept z hz := by
    obtain ⟨y, hy, rfl⟩ := List.mem_map.mp hz
    obtain ⟨x', hx', hser, hm, hs, hb, hr⟩ := h.kept y hy
    by_cases he : y.serial = x.serial
    · obtain rfl := hi.eq_of_serial hy hx he
      have hp := h.pending x'.m
      rw [hm, List.count_cons_self] at hr hp
      refine ⟨x', hx', by rw [if_pos he]; exact hser, by rw [if_pos he]; exact hm,
        by rw [if_pos he]; exact hs, by rw [if_pos he]; exact hb, ?_⟩
      rw [if_pos he]
      change y.r - 1 = _ - (given (targets releases) (calledIn p.log) _ - _)
      omega
    · have hne : x.m ≠ x'.m := fun hxm => he (by
        rw [List.inj_on_of_nodup_map hi.live_nodup hy hx (hm.trans hxm.symm)])
      rw [List.count_cons_of_ne hne] at hr
      exact ⟨x', hx', by rw [if_neg he]; exact hser, by rw [if_neg he]; exact hm,
        by rw [if_neg he]; exact hs, by rw [if_neg he]; exact hb, by rw [if_neg he]; exact hr⟩
  pending a := le_trans List.count_le_count_cons (h.pending a)
  called_in := h.called_in
  falls z hz hc := h.falls z hz (by rwa [giveUp_serials] at hc)

theorem Tally.callback (h : Tally releases start pend p) (hs : Inv ∅ start) (hi : Inv D p)
    (hy : y ∈ p.records) (h0 : y.r = 0) (b : Bool) :
    Tally releases start (targets releases y.serial ++ pend)
      (p.note [.callback y.serial b]) := by
  have hlog : calledIn (p.note [.callback y.serial b]).log = calledIn p.log ++ [y.serial] :=
    calledIn_append _ _
  obtain ⟨x, hx, hser, -⟩ := h.kept y hy
  have hfall := h.falls_of_zero hs hi hy h0 hx hser
  refine ⟨fun z hz => ?_, fun a => ?_, ?_, fun z hz hc => ?_⟩
  · obtain ⟨x', hx', hser', hm, hs', hb, hr⟩ := h.kept z hz
    refine ⟨x', hx', hser', hm, hs', hb, ?_⟩
    rw [hlog, given_concat, List.count_append, hr]
    omega
  · rw [hlog, given_concat, List.count_append]
    have := h.pending a
    omega
  · rw [hlog]
    refine List.append_subset.mpr ⟨h.called_in, List.cons_subset.mpr ⟨?_, List.nil_subset _⟩⟩
    rw [hser]
    exact serial_mem hx
  · rw [hlog] at hc ⊢
    have hbefore : BlockFalls releases start (calledIn p.log) z := by
      obtain hc | hc := hc
      · obtain hc | hc := List.mem_append.mp hc
        · exact h.falls z hz (Or.inl hc)
        · obtain rfl := hs.eq_of_serial hz hx ((List.mem_singleton.mp hc).trans hser)
          exact hfall
      · exact h.falls z hz (Or.inr hc)
    exact hbefore.mono fun k hk => List.mem_append_left _ hk

theorem Tally.free (h : Tally releases start pend p) (hs : Inv ∅ start) (hi : Inv D p)
    (hy : y ∈ p.records) (h0 : y.r = 0) (hfree : p.free y.serial false = .ok p') :
    Tally releases start pend p' := by
  obtain ⟨z, -, -, hrec, hlog⟩ := free_log hfree
  have hcalled : calledIn p'.log = calledIn p.log := by
    rw [hlog, calledIn_append]
    exact List.append_nil _
  refine ⟨fun w hw => ?_, fun a => ?_, ?_, fun w hw hc => ?_⟩
  · rw [hrec] at hw
    rw [hcalled]
    exact h.kept w (mem_delete.mp hw).1
  · rw [hcalled]
    exact h.pending a
  · rw [hcalled]
    exact h.called_in
  · rw [hcalled] at hc ⊢
    by_cases he : y.serial = w.serial
    · exact h.falls_of_zero hs hi hy h0 hw he
    · refine h.falls w hw (hc.imp_right fun hc hmem => hc ?_)
      rw [Pool.serials, hrec]
      exact mem_serials_delete.mpr ⟨hmem, Ne.symm he⟩

end Tally

section Totality

variable {releases : Nat → List (Nat × Bool)} {D : Set Nat} {start pool p p' : Pool}
  {x : Record} {pend : List Nat}

structure Settles (releases : Nat → List (Nat × Bool)) (start : Pool) (pend : List Nat)
    (D : Set Nat) (pool pool' : Pool) : Prop extends Released D pool pool', Quiet pool pool' where
  tally : Tally releases start pend pool'

theorem Settles.trans {pend' : List Nat} (h : Settles releases start pend D pool p)
    (h' : Settles releases start pend' D p p') : Settles releases start pend' D pool p' :=
  ⟨h.toReleased.trans h'.toReleased, h.toQuiet.trans h'.toQuiet, h'.tally⟩

theorem foldlM_settles {f : Pool → Nat × Bool → Except Stop Pool} {l : List (Nat × Bool)}
    (h : Inv D pool) (ht : Tally releases start (l.map Prod.fst ++ pend) pool)
    (hf : ∀ p a pend, Released D pool p → Tally releases start (a.1 :: pend) p →
      ∃ p', f p a = .ok p' ∧ Settles releases start pend D p p') :
    ∃ pool', l.foldlM f pool = .ok pool' ∧ Settles releases start pend D pool pool' := by
  induction l generalizing pool with
  | nil => exact ⟨pool, rfl, Released.refl h, Quiet.refl pool, ht⟩
  | cons a l ih =>
    obtain ⟨p1, h1, hs1⟩ := hf pool a _ (Released.refl h) ht
    obtain ⟨p2, h2, hs2⟩ := ih hs1.inv hs1.tally fun p a pend hr =>
      hf p a pend (hs1.toReleased.trans hr)
    exact ⟨p2, by rw [List.foldlM_cons, bind_ok h1, h2], hs1.trans hs2⟩

theorem giveUp_inv (h : Inv D pool) (hx : x ∈ pool.records) (h0 : x.r ≠ 0) (cb : Bool) :
    x.serial ∉ D ∧ Inv D (giveUp pool x cb) := by
  have hnD := h.not_dying hx h0
  exact ⟨hnD, h.update (fun _ => rfl) (fun _ => rfl) hnD⟩

theorem giveUp_settles (h : Inv D pool) (ht : Tally releases start (x.m :: pend) pool)
    (hx : x ∈ pool.records) (h0 : x.r ≠ 0) (h1 : x.r - 1 ≠ 0) (cb : Bool) :
    Settles releases start pend D pool (giveUp pool x cb) := by
  obtain ⟨-, hinv⟩ := giveUp_inv h hx h0 cb
  refine ⟨⟨hinv, (retained_release hx h0 cb).le, (length_update _).le⟩, ⟨?_, ?_, [],
    (List.append_nil _).symm, nofun⟩, ht.giveUp h hx⟩
  · refine filter_update fun y hy he => ?_
    obtain rfl := h.eq_of_serial hy hx he
    exact ⟨h0, h1⟩
  · rw [giveUp_serials]
    exact List.Subset.refl _

theorem died_settles (events : List Event) (cb : Bool) (hs : Inv ∅ start) (h : Inv D pool)
    (hx : x ∈ pool.records) (h0 : x.r ≠ 0) (he : ∀ e ∈ events, eventSerial e ∈ pool.serials)
    (hp : Settles releases start pend (insert x.serial D) ((giveUp pool x cb).note events) p) :
    ∃ p', p.free x.serial false = .ok p' ∧ Settles releases start pend D pool p' := by
  obtain ⟨hnD, -⟩ := giveUp_inv h hx h0 cb
  obtain ⟨p', hfree, hr, -⟩ := free_released hp.inv hnD
  obtain ⟨y, hy, hys, hrec, hlog⟩ := free_log hfree
  obtain ⟨z, hz, hzs, hz0⟩ := hp.inv.dying x.serial (Or.inl rfl)
  obtain ⟨events', hlog', he'⟩ := hp.log
  have hser : ((giveUp pool x cb).note events).serials = pool.serials := giveUp_serials cb
  rw [hser] at he'
  have hsub := hp.serials
  rw [hser] at hsub
  refine ⟨p', hfree, ⟨hr.inv, ?_, ?_⟩, ⟨?_, fun n hn => ?_, ?_⟩, ?_⟩
  · exact hr.retained_le.trans (hp.retained_le.trans (retained_release hx h0 cb).le)
  · exact hr.length_le.trans (hp.length_le.trans (length_update _).le)
  · rw [unused_free hfree, hp.unused]
    refine filter_died (fun _ => rfl) fun z hz hzs => ?_
    rw [h.eq_of_serial hz hx hzs]
    exact h0
  · rw [Pool.serials, hrec] at hn
    exact hsub (mem_serials_delete.mp hn).1
  · refine ⟨events ++ events' ++ [.removed x.serial y.r false, .freedMemory x.serial,
      .freedRecord x.serial], ?_, fun e hmem => ?_⟩
    · rw [hlog, hlog']
      simp only [giveUp, Pool.update, Pool.note, List.append_assoc]
    · obtain hmem | hmem := List.mem_append.mp hmem
      · obtain hmem | hmem := List.mem_append.mp hmem
        · exact he e hmem
        · exact he' e hmem
      · have hs : eventSerial e = x.serial := by
          simp only [List.mem_cons, List.not_mem_nil, or_false] at hmem
          obtain rfl | rfl | rfl := hmem <;> rfl
        rw [hs]
        exact serial_mem hx
  · exact hp.tally.free hs hp.inv hz hz0 (by rw [hzs]; exact hfree)

/-- A release ends, whatever the callbacks release. -/
theorem releaseWith_settles (fuel : Nat) (a : Nat × Bool) (hs : Inv ∅ start) (h : Inv D pool)
    (ht : Tally releases start (a.1 :: pend) pool) (hfuel : pool.retained < fuel) :
    ∃ pool', releaseWith releases fuel a.1 a.2 pool = .ok pool' ∧
      Settles releases start pend D pool pool' := by
  induction fuel generalizing D pool a pend with
  | zero => omega
  | succ fuel ih =>
    obtain ⟨mem, cb⟩ := a
    rw [releaseWith]
    cases hf : pool.find mem with
    | none =>
      refine ⟨pool, rfl, Released.refl h, Quiet.refl pool, ht.skip fun y hy hm => ?_⟩
      have hn := List.find?_eq_none.mp hf y hy
      simp [hm] at hn
    | some x =>
      obtain ⟨hx, rfl⟩ := find_some hf
      by_cases h0 : x.r = 0
      · refine ⟨pool, by simp only [if_pos h0], Released.refl h, Quiet.refl pool,
          ht.skip fun y hy hm => ?_⟩
        rw [List.inj_on_of_nodup_map h.live_nodup hy hx hm]
        exact h0
      · simp only [if_neg h0]
        by_cases hdie : x.r - 1 = 0
        · obtain ⟨hnD, h1⟩ := giveUp_inv h hx h0 cb
          have ht1 : Tally releases start pend (giveUp pool x cb) := ht.giveUp h hx
          have hret : (giveUp pool x cb).retained < pool.retained := retained_release hx h0 cb
          have hx1 : ({ x with r := x.r - 1, cb := cb } : Record) ∈ (giveUp pool x cb).records :=
            mem_update hx rfl
          simp only [if_pos hdie]
          cases cb with
          | false =>
            have h2 := h1.enter hx1 hdie
            have hsame : (giveUp pool x false).note [] = giveUp pool x false := by
              rw [Pool.note, List.append_nil]
            refine died_settles [] false hs h hx h0 (fun e he => absurd he List.not_mem_nil) ?_
            rw [hsame]
            exact ⟨Released.refl h2, Quiet.refl _, ht1⟩
          | true =>
            obtain ⟨p2, hrun, hs2⟩ := foldlM_settles (l := releases x.serial)
              (f := fun pool a => releaseWith releases fuel a.1 a.2 pool)
              (h1.callback hx1 hdie hnD) (ht1.callback hs h1 hx1 hdie _) fun p a pend hp hta =>
                ih a hp.inv hta (lt_of_le_of_lt hp.retained_le (hret.trans_le (by omega)))
            obtain ⟨p', hfree, hs⟩ := died_settles _ true hs h hx h0 (fun e he => by
              obtain rfl := List.mem_singleton.mp he
              exact (serial_mem hx : x.serial ∈ pool.serials)) hs2
            refine ⟨p', ?_, hs⟩
            simp only [if_true]
            rw [← hfree]
            exact bind_ok hrun
        · exact ⟨giveUp pool x cb, by simp only [if_neg hdie]; rfl,
            giveUp_settles h ht hx h0 hdie cb⟩

end Totality

section Batches

variable {releases : Nat → List (Nat × Bool)} {start pool p p' : Pool} {x : Record}
  {l : List Record}

/-- The blocks of a list go, and no event is of a block that was not there. -/
structure Gone (l : List Record) (pool pool' : Pool) : Prop where
  freed : ∀ x ∈ l, x.serial ∉ pool'.serials ∧ FreedOnce x pool'.log
  serials : pool'.serials ⊆ pool.serials
  log : ∃ events, pool'.log = pool.log ++ events ∧ ∀ e ∈ events, eventSerial e ∈ pool.serials

theorem FreedOnce.append {log events : List Event} (h : FreedOnce x log)
    (he : ∀ e ∈ events, eventSerial e ≠ x.serial) : FreedOnce x (log ++ events) := by
  have hnot : ∀ e, eventSerial e = x.serial → events.count e = 0 := fun e hs =>
    List.count_eq_zero.mpr fun hmem => he e hmem hs
  refine ⟨h.order.trans (List.sublist_append_left _ _), ?_, ?_, ?_⟩
  · rw [List.count_append, hnot _ rfl, h.calls, Nat.add_zero]
  · rw [List.count_append, hnot _ rfl, h.memory]
  · rw [List.count_append, hnot _ rfl, h.record]

/-- The events of the callback of a block and those of its end, in a log that knew nothing of
the block before. -/
theorem FreedOnce.of_log {log events : List Event} (hsafe : Safe (log ++
      ((if x.cb then [Event.callback x.serial true] else []) ++ events ++
        [Event.removed x.serial 0 false, .freedMemory x.serial, .freedRecord x.serial])))
    (hlog : .callback x.serial true ∉ log) (hnil : x.cb = false → events = []) :
    FreedOnce x (log ++ ((if x.cb then [Event.callback x.serial true] else []) ++ events ++
        [Event.removed x.serial 0 false, .freedMemory x.serial, .freedRecord x.serial])) := by
  have horder : List.Sublist ((if x.cb then [Event.callback x.serial true] else []) ++
      [Event.removed x.serial 0 false, .freedMemory x.serial, .freedRecord x.serial])
      (log ++ ((if x.cb then [Event.callback x.serial true] else []) ++ events ++
        [Event.removed x.serial 0 false, .freedMemory x.serial, .freedRecord x.serial])) :=
    ((List.sublist_append_left _ events).append_right _).trans (List.sublist_append_right _ _)
  have hpos : ∀ e ∈ ((if x.cb then [Event.callback x.serial true] else []) ++
      [Event.removed x.serial 0 false, .freedMemory x.serial, .freedRecord x.serial] : List Event),
      0 < List.count e (log ++ ((if x.cb then [Event.callback x.serial true] else []) ++ events ++
        [Event.removed x.serial 0 false, .freedMemory x.serial, .freedRecord x.serial])) :=
    fun e he => List.count_pos_iff.mpr (horder.subset he)
  refine ⟨horder, ?_, ?_, ?_⟩
  · cases hcb : x.cb with
    | true =>
      have hle := hsafe.callback_once x.serial
      have hge := hpos (.callback x.serial true) (by rw [hcb]; exact List.mem_cons_self)
      rw [hcb] at hle hge
      simp only [if_true]
      exact le_antisymm hle hge
    | false =>
      rw [hnil hcb]
      simpa [List.count_eq_zero] using hlog
  · have hge := hpos (.freedMemory x.serial) (by simp)
    exact le_antisymm (hsafe.memory_once x.serial) hge
  · have hge := hpos (.freedRecord x.serial) (by simp)
    exact le_antisymm (hsafe.record_once x.serial) hge

theorem sweepWith_first (hs : Inv ∅ start) (h : Inv ∅ pool) (ht : Tally releases start [] pool)
    (hu : unused pool = x :: l) :
    ∃ p', sweepWith releases pool x.m = .ok p' ∧ Inv ∅ p' ∧ Tally releases start [] p' ∧
      unused p' = l ∧ Gone [x] pool p' := by
  have hxu : x ∈ unused pool := by rw [hu]; exact List.mem_cons_self
  obtain ⟨hx, h0⟩ := List.mem_filter.mp hxu
  have h0 : x.r = 0 := by simpa using h0
  have hin : decide (x.serial ∈ pool.serials) = true := decide_eq_true (serial_mem hx)
  -- the callback, if any, leaves the block in the pool with count 0
  obtain ⟨p2, hrun, hinv, ht2, hun, hsub, events, hlog, he, hnil⟩ : ∃ p2,
      (if x.cb then callbackWith releases pool x.serial else pure pool) = .ok p2 ∧
      Inv (insert x.serial ∅) p2 ∧ Tally releases start [] p2 ∧ unused p2 = unused pool ∧
      p2.serials ⊆ pool.serials ∧ ∃ events, p2.log =
        pool.log ++ ((if x.cb then [Event.callback x.serial true] else []) ++ events) ∧
        (∀ e ∈ events, eventSerial e ∈ pool.serials) ∧ (x.cb = false → events = []) := by
    cases hcb : x.cb with
    | false =>
      exact ⟨pool, rfl, h.enter hx h0, ht, rfl, List.Subset.refl _, [], by simp, nofun,
        fun _ => rfl⟩
    | true =>
      obtain ⟨p2, hrun, hset⟩ := foldlM_settles (l := releases x.serial)
        (f := releaseCall releases) (h.callback hx h0 (Set.notMem_empty _))
        (ht.callback hs h hx h0 _) fun p a pend hp hta =>
          releaseWith_settles _ a hs hp.inv hta (Nat.lt_succ_self _)
      obtain ⟨events, hlog, he⟩ := hset.log
      refine ⟨p2, hrun, hset.inv, hset.tally, hset.unused, hset.serials, events, ?_, he, nofun⟩
      rw [hlog, Pool.note, hin, List.append_assoc]
      rfl
  obtain ⟨p', hfree, hr, -⟩ := free_released hinv (Set.notMem_empty _)
  obtain ⟨y, hy, hys, hrec, hlog'⟩ := free_log hfree
  have hy0 : y.r = 0 := by
    obtain ⟨z, hz, hzs, hz0⟩ := hinv.dying x.serial (Or.inl rfl)
    rw [hinv.eq_of_serial hy hz (hys.trans hzs.symm)]
    exact hz0
  have hgone : x.serial ∉ p'.serials := by
    rw [Pool.serials, hrec]
    exact fun hmem => (mem_serials_delete.mp hmem).2 rfl
  have hwhole : p'.log = pool.log ++ ((if x.cb then [Event.callback x.serial true] else []) ++
      events ++ [Event.removed x.serial 0 false,
        .freedMemory x.serial, .freedRecord x.serial]) := by
    rw [hlog', hlog, hy0, List.append_assoc]
  refine ⟨p', ?_, hr.inv, ht2.free hs hinv hy hy0 (by rw [hys]; exact hfree), ?_, ?_⟩
  · rw [sweepWith, h.find_of_mem hx]
    simp only [if_pos h0]
    have hbind := (bind_ok (f := fun p : Pool => p.free x.serial false) hrun).trans hfree
    cases hcb : x.cb <;> (rw [hcb] at hbind; exact hbind)
  · rw [unused_free hfree, hun, hu, List.filter_cons_of_neg (by simp), List.filter_eq_self]
    intro z hz
    have hnd : ((unused pool).map Record.serial).Nodup :=
      (List.filter_sublist.map Record.serial).nodup h.serials_nodup
    rw [hu, List.map_cons, List.nodup_cons] at hnd
    have hne : z.serial ≠ x.serial := fun he => hnd.1 (List.mem_map.mpr ⟨z, hz, he⟩)
    simpa using hne
  · refine ⟨fun z hz => ?_, fun n hn => ?_, _, hwhole, fun e hmem => ?_⟩
    · obtain rfl := List.mem_singleton.mp hz
      refine ⟨hgone, ?_⟩
      have hsafe := hr.inv.safe
      rw [hwhole] at hsafe ⊢
      exact .of_log hsafe (h.called _ (serial_mem hx) (Set.notMem_empty _)) hnil
    · rw [Pool.serials, hrec] at hn
      exact hsub (mem_serials_delete.mp hn).1
    · have hself : ∀ e : Event, eventSerial e = x.serial → eventSerial e ∈ pool.serials :=
        fun e he => by rw [he]; exact serial_mem hx
      obtain hmem | hmem := List.mem_append.mp hmem
      · obtain hmem | hmem := List.mem_append.mp hmem
        · cases hcb : x.cb with
          | false =>
            rw [hcb] at hmem
            cases hmem
          | true =>
            rw [hcb] at hmem
            obtain rfl := List.mem_singleton.mp hmem
            exact hself _ rfl
        · exact he e hmem
      · simp only [List.mem_cons, List.not_mem_nil, or_false] at hmem
        obtain rfl | rfl | rfl := hmem <;> exact hself _ rfl

theorem Gone.cons (h : Gone [x] pool p) (h' : Gone l p p') : Gone (x :: l) pool p' := by
  obtain ⟨events, hlog, he⟩ := h.log
  obtain ⟨events', hlog', he'⟩ := h'.log
  obtain ⟨hx, honce⟩ := h.freed x List.mem_cons_self
  refine ⟨fun z hz => ?_, fun n hn => h.serials (h'.serials hn), events ++ events',
    by rw [hlog', hlog, List.append_assoc], fun e hmem => ?_⟩
  · obtain rfl | hz := List.mem_cons.mp hz
    · refine ⟨fun hmem => hx (h'.serials hmem), ?_⟩
      rw [hlog']
      exact honce.append fun e hmem hs => hx (hs ▸ he' e hmem)
    · exact h'.freed z hz
  · obtain hmem | hmem := List.mem_append.mp hmem
    · exact he e hmem
    · exact h.serials (he' e hmem)

theorem sweepWith_all (hs : Inv ∅ start) (h : Inv ∅ pool) (ht : Tally releases start [] pool)
    (l' : List Record) (hu : unused pool = l ++ l') :
    ∃ p', (l.map Record.m).foldlM (sweepWith releases) pool = .ok p' ∧ Inv ∅ p' ∧
      Tally releases start [] p' ∧ unused p' = l' ∧ Gone l pool p' := by
  induction l generalizing pool with
  | nil =>
    exact ⟨pool, rfl, h, ht, hu, nofun, List.Subset.refl _, [], (List.append_nil _).symm, nofun⟩
  | cons x l ih =>
    obtain ⟨p1, h1, hinv, ht1, hun, hg1⟩ := sweepWith_first hs h ht hu
    obtain ⟨p2, h2, hinv2, ht2, hun2, hg2⟩ := ih hinv ht1 hun
    exact ⟨p2, by rw [List.map_cons, List.foldlM_cons, bind_ok h1, h2], hinv2, ht2, hun2,
      hg1.cons hg2⟩

/-- In batches of whatever size, the blocks with count 0 are swept in the order of the table. -/
theorem releaseUnusedWith_eq {batch : Nat} (hb : 0 < batch) (fuel : Nat) (hs : Inv ∅ start)
    (h : Inv ∅ pool) (ht : Tally releases start [] pool) (hfuel : (unused pool).length < fuel) :
    releaseUnusedWith releases batch fuel pool =
      ((unused pool).map Record.m).foldlM (sweepWith releases) pool := by
  induction fuel generalizing pool with
  | zero => omega
  | succ fuel ih =>
    have hsplit := (List.take_append_drop batch (unused pool)).symm
    obtain ⟨p1, h1, hinv, ht1, hun, -⟩ := sweepWith_all hs h ht _ hsplit
    have hwhole : ((unused pool).map Record.m).foldlM (sweepWith releases) pool =
        ((unused p1).map Record.m).foldlM (sweepWith releases) p1 := by
      conv_lhs => rw [hsplit, List.map_append, List.foldlM_append, bind_ok h1, ← hun]
    rw [releaseUnusedWith, ← List.map_take]
    simp only [bind_ok h1, List.length_map, List.length_take]
    by_cases hfull : min batch (unused pool).length ≥ batch
    · rw [if_pos hfull, hwhole]
      refine ih hinv ht1 ?_
      rw [hun, List.length_drop]
      omega
    · rw [if_neg hfull, hwhole, hun, List.drop_of_length_le (by omega)]
      rfl

/-- Where no release is left to come and no block has count 0, those are gone that fall. -/
theorem Tally.complete (h : Tally releases start [] p) (hs : Inv ∅ start) (hi : Inv ∅ p)
    (hun : unused p = []) (hg : Gone (unused start) start p) : Complete releases start p := by
  have hpos : ∀ y ∈ p.records, 0 < y.r := by
    intro y hy
    have hne := List.filter_eq_nil_iff.mp hun y hy
    exact Nat.pos_of_ne_zero (by simpa using hne)
  have hkept : ∀ y ∈ p.records, ∃ x ∈ start.records, y.serial = x.serial ∧ y.m = x.m ∧
      y.s = x.s ∧ y.bytes = x.bytes ∧
      y.r = x.r - given (targets releases) (calledIn p.log) x.m := h.kept
  refine ⟨hpos, fun x hx h0 => hg.freed x (List.mem_filter.mpr ⟨hx, by simpa using h0⟩),
    fun x hx => ⟨fun hx' => h.falls x hx (Or.inr hx'), fun hfall => ?_⟩, hkept⟩
  refine (hfall.mem_of_closed (fun x => x ∈ start.records ∧ x.serial ∉ p.serials)
    fun z l hz hl hact hgone hle => ⟨hz, fun hmem => ?_⟩).2
  obtain ⟨y, hy, hyz⟩ := List.mem_map.mp hmem
  obtain ⟨x', hx', hser, -, -, -, hr⟩ := hkept y hy
  obtain rfl := hs.eq_of_serial hx' hz (hser.symm.trans hyz)
  have hsub : l ⊆ start.records.filter fun x => x.serial ∈ calledIn p.log := fun k hk =>
    List.mem_filter.mpr ⟨(hgone k hk).1, by simpa using hact k hk⟩
  have hgiven : given (fun x => targets releases x.serial) l x'.m ≤ _ := given_le hl hsub
  rw [given_records hs.serials_nodup (calledIn_nodup hi.safe) h.called_in] at hgiven
  have := hpos y hy
  omega

/-- The sweep comes to its end, leaves no block with count 0, calls the callback of each that
had it once and frees it, and of the others takes those that the callbacks' releases bring to 0;
batches of any other size come to the same. -/
theorem releaseUnusedWith_complete (releases : Nat → List (Nat × Bool)) (pool : Pool)
    (h : Start pool) :
    ∃ pool', releaseUnusedWith releases batchSize (pool.records.length + 1) pool = .ok pool' ∧
      Complete releases pool pool' ∧
      ∀ batch fuel, 0 < batch → pool.records.length < fuel →
        releaseUnusedWith releases batch fuel pool = .ok pool' := by
  have hinv := h.inv
  have ht : Tally releases pool [] pool := Tally.refl h.log_eq
  obtain ⟨p, hrun, hi, ht', hun, hg⟩ := sweepWith_all (l := unused pool) hinv hinv ht []
    (List.append_nil _).symm
  have hlen : (unused pool).length ≤ pool.records.length := List.length_filter_le _ _
  have hall : ∀ batch fuel, 0 < batch → pool.records.length < fuel →
      releaseUnusedWith releases batch fuel pool = .ok p := by
    intro batch fuel hb hfuel
    rw [releaseUnusedWith_eq hb fuel hinv hinv ht (hlen.trans_lt hfuel), hrun]
  exact ⟨p, hall _ _ (by decide) (Nat.lt_succ_self _), ht'.complete hinv hi hun hg, hall⟩

def chainedPool : Pool where
  records := [⟨0, 16, 8, 0, true, []⟩, ⟨1, 32, 8, 1, false, []⟩, ⟨2, 48, 8, 2, false, []⟩]
  clock := 3
  log := []

theorem releaseUnusedWith_complete_chained :
    ∃ pool', releaseUnusedWith (fun n => if n = 0 then [(32, true)] else
        if n = 1 then [(48, false)] else []) batchSize 4 chainedPool = .ok pool' ∧
      Complete (fun n => if n = 0 then [(32, true)] else
        if n = 1 then [(48, false)] else []) chainedPool pool' ∧
      ∀ batch fuel, 0 < batch → 3 < fuel →
        releaseUnusedWith (fun n => if n = 0 then [(32, true)] else
          if n = 1 then [(48, false)] else []) batch fuel chainedPool = .ok pool' :=
  releaseUnusedWith_complete _ chainedPool
    ⟨by decide, by decide, by decide, by decide, rfl⟩

end Batches

end LcClibs.Memory.Sweep
