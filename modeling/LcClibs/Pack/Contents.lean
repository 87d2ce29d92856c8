import Mathlib
import LcClibs.Lib.Runs
import LcClibs.Pack.Parsing

namespace LcClibs.Pack.Contents

open Platform Lib Lib.Runs Buffer.Cursor Buffer.VarInt Mmo.Object
open Pack.Records Pack.Process Pack.Parsing

section Stores

/-- An object that is not the properties of a section or the roots. -/
def Below (store : List Gen) (a : Addr) : Prop :=
  ∃ g, store[a]? = some g ∧ ∀ items, g ≠ Gen.map false items

/-- The properties of objects are plain maps, the maps kept in maps are contexts, and there
are roots. -/
structure Kinds (u : MMUnpacker) : Prop where
  props : ∀ e ∈ u.objects, ∀ a, e.2 = .props a → MapAt u.store a false
  values : ∀ (a : Addr) c items, u.store[a]? = some (Gen.map c items) →
    ∀ i ∈ items, Below u.store i.2
  rooted : u.roots.isSome

theorem Below.append {store : List Gen} {a : Addr} (h : Below store a) (gs : List Gen) :
    Below (store ++ gs) a := by
  obtain ⟨g, hg, hne⟩ := h
  exact ⟨g, by rw [List.getElem?_append_left (List.getElem?_eq_some_iff.mp hg).1, hg], hne⟩

theorem Below.new (store : List Gen) {g : Gen} (hg : ∀ items, g ≠ Gen.map false items) :
    Below (store ++ [g]) store.length :=
  ⟨g, by simp, hg⟩

theorem Below.set {store : List Gen} {a b : Addr} {g g' : Gen} (h : Below store b)
    (ha : store[a]? = some g)
    (hg : (∀ items, g ≠ Gen.map false items) → ∀ items, g' ≠ Gen.map false items) :
    Below (store.set a g') b := by
  obtain ⟨x, hx, hne⟩ := h
  by_cases hab : a = b
  · subst hab
    obtain rfl : g = x := Option.some.inj (ha.symm.trans hx)
    exact ⟨g', by rw [List.getElem?_set_self (List.getElem?_eq_some_iff.mp hx).1], hg hne⟩
  · exact ⟨x, by rw [List.getElem?_set_ne hab, hx], hne⟩

end Stores

section Rounds

variable {host : Host} {p p' : Parser}

abbrev KeepsKinds {α : Type} (x : ProcM α) : Prop :=
  Keeping (fun p : Parser => Kinds p.toMMUnpacker) x

theorem KeepsKinds.onDyb {α : Type} (x : DybM α) : KeepsKinds (onDyb x) := by
  intro p b p' hk h
  cases hx : x p.dyb with
  | error f =>
    rw [onDyb_error hx] at h
    cases h
  | ok r =>
    rw [onDyb_ok hx] at h
    cases h
    exact ⟨hk.props, hk.values, hk.rooted⟩

theorem KeepsKinds.modify {g : Parser → Parser} (hs : ∀ p, (g p).store = p.store)
    (ho : ∀ p, (g p).objects = p.objects) (hr : ∀ p, (g p).roots = p.roots) :
    KeepsKinds (modify g : ProcM PUnit) := by
  intro p b p' hk h
  cases h
  exact ⟨fun e he a ha => by
      rw [ho] at he
      rw [hs]
      exact hk.props e he a ha,
    fun a c items ha i hi => by
      rw [hs] at ha ⊢
      exact hk.values a c items ha i hi,
    by
      rw [hr]
      exact hk.rooted⟩

theorem Kinds.alloc (hk : Kinds p.toMMUnpacker) {g : Gen}
    (hg : ∀ c items, g = Gen.map c items → items = []) :
    Kinds { p.toMMUnpacker with store := p.store ++ [g] } where
  props e he a ha := (Stores.alloc p g).kept_map a false (hk.props e he a ha)
  values a c items ha i hi := by
    obtain hlt | hge := Nat.lt_or_ge a p.store.length
    · rw [List.getElem?_append_left hlt] at ha
      exact (hk.values a c items ha i hi).append _
    · rw [List.getElem?_append_right hge] at ha
      have hmem := List.mem_singleton.mp (List.mem_of_getElem? ha)
      rw [hg c items hmem.symm] at hi
      cases hi
  rooted := hk.rooted

theorem Kinds.putItem (hk : Kinds p.toMMUnpacker) {a value : Addr} {c : Bool}
    {items : List (List UInt8 × Addr)} (ha : p.store[a]? = some (.map c items))
    (hv : Below p.store value) (k : List UInt8) :
    Kinds { p.toMMUnpacker with
      store := p.store.set a (.map c (Table.put Prod.fst (k, value) items)) } := by
  have hset : ∀ b, Below p.store b →
      Below (p.store.set a (.map c (Table.put Prod.fst (k, value) items))) b := fun b hb =>
    hb.set ha fun hne items' h => by
      cases h
      exact hne items rfl
  refine ⟨fun e he b hb => ?_, fun b c' items' hb i hi => ?_, hk.rooted⟩
  · have hst : Stores p { p with
        store := p.store.set a (.map c (Table.put Prod.fst (k, value) items)) } :=
      Stores.set ha trivial fun c' items' h => by cases h; exact ⟨_, rfl⟩
    exact hst.kept_map b false (hk.props e he b hb)
  · by_cases hab : a = b
    · subst hab
      rw [List.getElem?_set_self (List.getElem?_eq_some_iff.mp ha).1] at hb
      cases hb
      obtain rfl | hi := Table.mem_put hi
      · exact hset _ hv
      · exact hset _ (hk.values a c items ha i hi)
    · rw [List.getElem?_set_ne hab] at hb
      exact hset _ (hk.values b c' items' hb i hi)

theorem Kinds.pushItem (hk : Kinds p.toMMUnpacker) {a value : Addr} {items : List Addr}
    (ha : p.store[a]? = some (.list items)) :
    Kinds { p.toMMUnpacker with store := p.store.set a (.list (items ++ [value])) } := by
  have hset : ∀ b, Below p.store b → Below (p.store.set a (.list (items ++ [value]))) b :=
    fun b hb => hb.set ha fun _ items' h => by cases h
  refine ⟨fun e he b hb => ?_, fun b c' items' hb i hi => ?_, hk.rooted⟩
  · have hst : Stores p { p with store := p.store.set a (.list (items ++ [value])) } :=
      Stores.set ha trivial fun c' items' h => by cases h
    exact hst.kept_map b false (hk.props e he b hb)
  · by_cases hab : a = b
    · subst hab
      rw [List.getElem?_set_self (List.getElem?_eq_some_iff.mp ha).1] at hb
      cases hb
    · rw [List.getElem?_set_ne hab] at hb
      exact hset _ (hk.values b c' items' hb i hi)

theorem pushIntoStack_kinds (hk : Kinds p.toMMUnpacker) {index : Nat} {value : Addr}
    (hv : Below p.store value) (h : pushIntoStack host index value p = .ok ((), p')) :
    Kinds p'.toMMUnpacker := by
  obtain ⟨a, p1, h1, h2⟩ := step_eq_ok.mp h
  cases hst : p.stack with
  | nil =>
    rw [getLastItem, step_get, hst] at h1
    cases h1
  | cons b s =>
    rw [getLastItem, step_get, hst] at h1
    cases h1
    rw [step_get] at h2
    cases hg : p.store[a]? with
    | none =>
      rw [hg] at h2
      cases h2
    | some g =>
      rw [hg] at h2
      cases g with
      | map c items =>
        cases h2
        exact hk.putItem hg hv _
      | list items =>
        cases h2
        exact hk.pushItem hg
      | _ =>
        cases h2
        exact hk

theorem pushKeyVal_kinds (hk : Kinds p.toMMUnpacker) {key : ProcM (List UInt8)} {value : Addr}
    (hv : Below p.store value)
    (hkey : ∀ k p1, key p = .ok (k, p1) → p1.store = p.store ∧ p1.objects = p.objects ∧
      p1.roots = p.roots)
    (h : pushKeyVal key value p = .ok ((), p')) : Kinds p'.toMMUnpacker := by
  obtain ⟨a, p1, h1, h2⟩ := step_eq_ok.mp h
  cases hst : p.stack with
  | nil =>
    rw [getLastItem, step_get, hst] at h1
    cases h1
  | cons b s =>
    rw [getLastItem, step_get, hst] at h1
    cases h1
    rw [step_get] at h2
    cases hg : p.store[a]? with
    | none =>
      rw [hg] at h2
      cases h2
    | some g =>
      rw [hg] at h2
      cases g with
      | map c items =>
        obtain ⟨k, p2, h3, h4⟩ := step_eq_ok.mp h2
        obtain ⟨hs, ho, hr⟩ := hkey k p2 h3
        cases h4
        have hput := hk.putItem hg hv k
        exact ⟨fun e he a ha => by
            simp only [hs]
            exact hput.props e (ho ▸ he) a ha,
          fun a c items ha i hi => by
            simp only [hs] at ha ⊢
            exact hput.values a c items ha i hi,
          by
            simp only [hr]
            exact hk.rooted⟩
      | _ =>
        cases h2
        exact hk

theorem processValue_kinds (index : Nat) {g : Gen} (hg : ∀ c items, g ≠ Gen.map c items) :
    KeepsKinds (processValue host index g) := by
  intro p a p' hk h
  rw [processValue, alloc_bind] at h
  obtain ⟨_, p1, h1, h2⟩ := step_eq_ok.mp h
  cases h2
  have halloc := hk.alloc (g := g) fun c items h => absurd h (hg c items)
  have hnew := Below.new p.store (g := g) (hg false)
  exact @pushIntoStack_kinds host { p with store := p.store ++ [g] } _ halloc _ _ hnew h1

theorem popItem_kinds : KeepsKinds popItem := by
  refine Keeping.get_bind fun p => ?_
  cases p.stack with
  | nil => exact .throw _
  | cons a s => exact KeepsKinds.modify (fun _ => rfl) (fun _ => rfl) fun _ => rfl

theorem popUntil_kinds (obj : Addr) : KeepsKinds (popUntil obj) := by
  intro p a p' hk h
  unfold popUntil at h
  split at h
  · cases h
    exact ⟨hk.props, hk.values, hk.rooted⟩
  · cases h

theorem processArray_kinds (index : Nat) : KeepsKinds (processArray host index) := by
  refine (KeepsKinds.onDyb _).bind fun size => ?_
  split_ifs
  · intro p a p' hk h
    rw [alloc_bind] at h
    obtain ⟨_, p1, h1, h2⟩ := step_eq_ok.mp h
    cases h2
    have halloc := hk.alloc (g := .list []) fun c items h => by cases h
    have hnew := Below.new p.store (g := .list []) fun items h => by cases h
    have hpush := @pushIntoStack_kinds host { p with store := p.store ++ [.list []] } _ halloc _ _
      hnew h1
    exact ⟨hpush.props, hpush.values, hpush.rooted⟩
  · exact popItem_kinds.bind fun _ => .pure _

theorem processRaw_kinds (index : Nat) : KeepsKinds (processRaw host index) :=
  (KeepsKinds.onDyb _).bind fun _ => (KeepsKinds.onDyb _).bind fun _ =>
    processValue_kinds index fun c items h => by cases h

theorem onDyb_eq_ok {α : Type} {x : DybM α} {a : α} (h : onDyb x p = .ok (a, p')) :
    ∃ d, p' = { p with dyb := d } := by
  unfold onDyb at h
  split at h
  · cases h
    exact ⟨_, rfl⟩
  · cases h

theorem Kinds.putProps {u : MMUnpacker} (hk : Kinds u) {map : Addr} (hmap : MapAt u.store map false)
    (num : Int) :
    Kinds { u with objects := Table.put Prod.fst (num, Entry.props map) u.objects } where
  props e he a ha := by
    obtain rfl | he := Table.mem_put he
    · cases ha
      exact hmap
    · exact hk.props e he a ha
  values := hk.values
  rooted := hk.rooted

theorem Kinds.putReference {u : MMUnpacker} (hk : Kinds u) (num : Int) (object : Option Addr) :
    Kinds { u with objects := Table.put Prod.fst (num, Entry.reference object) u.objects } where
  props e he a ha := by
    obtain rfl | he := Table.mem_put he
    · cases ha
    · exact hk.props e he a ha
  values := hk.values
  rooted := hk.rooted

theorem openObject_kinds (hk : Kinds p.toMMUnpacker) {obj : Addr}
    (hobj : MapAt p.store obj false) (num : Int) (entry : Option Nat) {a : Option Bool}
    (h : (do
      pushItem obj
      modify fun p => { p with objects := Table.put Prod.fst (num, Entry.props obj) p.objects }
      let name ← onDyb (Buffer.Next.cstringAt entry)
      let string ← alloc (.string name)
      pushKeyVal (pure className) string
      return none : ProcM (Option Bool)) p = .ok (a, p')) : Kinds p'.toMMUnpacker := by
  simp only [pushItem, step_modify] at h
  obtain ⟨name, p2, h1, h2⟩ := step_eq_ok.mp h
  obtain ⟨d, rfl⟩ := onDyb_eq_ok h1
  rw [alloc_bind] at h2
  obtain ⟨_, p3, h3, h4⟩ := step_eq_ok.mp h2
  cases h4
  have hput := hk.putProps hobj num
  have halloc := @Kinds.alloc
    { p with objects := Table.put Prod.fst (num, Entry.props obj) p.objects } hput (.string name)
    fun c items h => by cases h
  refine pushKeyVal_kinds ?_ (Below.new _ fun items h => by cases h) (fun k p1 hk => ?_) h3
  · exact ⟨halloc.props, halloc.values, halloc.rooted⟩
  · cases hk
    exact ⟨rfl, rfl, rfl⟩

theorem processObject_kinds (index : Nat) : KeepsKinds (processObject index) := by
  intro p a p' hk h
  rw [processObject, step_get] at h
  cases hc : p.currentObj with
  | some obj =>
    rw [hc] at h
    simp only [step_get, Parsing.ite_run] at h
    have hclose : KeepsKinds (do
        Process.popUntil obj
        modify fun p => { p with currentObj := none, currentObjNum := 0xFFFFFFFF }
        popItem
        return none : ProcM (Option Bool)) :=
      (popUntil_kinds obj).bind fun _ =>
        (KeepsKinds.modify (by intro _; rfl) (by intro _; rfl) (by intro _; rfl)).bind fun _ =>
          popItem_kinds.bind fun _ => .pure _
    split_ifs at h
    · cases h
      exact hk
    · exact hclose p a p' hk h
  | none =>
    rw [hc] at h
    simp only [alloc_bind, step_modify] at h
    obtain ⟨num, p1, h1, h2⟩ := step_eq_ok.mp h
    obtain ⟨d, rfl⟩ := onDyb_eq_ok h1
    have halloc : Kinds { p.toMMUnpacker with store := p.store ++ [.map false []] } :=
      hk.alloc fun c items h => by cases h; rfl
    rw [step_get] at h2
    cases hf : Table.find Prod.fst (int32 num) p.idToClassName with
    | none =>
      simp only [hf] at h2
      cases h2
      exact ⟨halloc.props, halloc.values, halloc.rooted⟩
    | some entry =>
      simp only [hf] at h2
      refine openObject_kinds ?_ (MapAt.new _ _ _) _ _ h2
      exact ⟨halloc.props, halloc.values, halloc.rooted⟩

theorem processContext_kinds (index : Nat) : KeepsKinds (processContext index) := by
  refine Keeping.get_bind fun p => ?_
  cases p.currentObj with
  | none => exact .pure _
  | some obj =>
    refine Keeping.get_bind fun p => ?_
    cases Table.find Prod.fst (int32 index) p.idToClassName with
    | none => exact .pure _
    | some entry =>
      refine (popUntil_kinds obj).bind fun _ p a p' hk h => ?_
      rw [alloc_bind] at h
      obtain ⟨_, p1, h1, h2⟩ := step_eq_ok.mp h
      cases h2
      have halloc := hk.alloc (g := .map true []) fun c items h => by cases h; rfl
      have hpush := @pushKeyVal_kinds { p with store := p.store ++ [.map true []] } _ halloc _ _
        (Below.new _ fun items h => by cases h)
        (fun k p1 hkey => by
          obtain ⟨d, rfl⟩ := onDyb_eq_ok hkey
          exact ⟨rfl, rfl, rfl⟩) h1
      exact ⟨hpush.props, hpush.values, hpush.rooted⟩

theorem processDb_kinds (index : Nat) : KeepsKinds (processDb index) := by
  unfold processDb
  split_ifs
  · refine (KeepsKinds.onDyb _).bind fun num => Keeping.get_bind fun p => ?_
    cases Table.find Prod.fst (int32 num) p.idToClassName with
    | some e => exact .pure _
    | none =>
      exact (KeepsKinds.onDyb _).bind fun _ =>
        (KeepsKinds.modify (by intro _; rfl) (by intro _; rfl) (by intro _; rfl)).bind
          fun _ => .pure _
  · exact .pure _

theorem processFunction_kinds (index : Nat) : KeepsKinds (processFunction index) := by
  unfold processFunction
  split_ifs
  · exact (KeepsKinds.onDyb _).bind fun _ => .pure _
  · exact .pure _

theorem processRecord_kinds (type index : Nat) : KeepsKinds (processRecord host type index) := by
  unfold processRecord
  split
  · exact (KeepsKinds.onDyb _).bind fun _ => processValue_kinds index fun c items h => by cases h
  split
  · exact (KeepsKinds.onDyb _).bind fun _ => processValue_kinds index fun c items h => by cases h
  split
  · exact (KeepsKinds.onDyb _).bind fun _ => processValue_kinds index fun c items h => by cases h
  split
  · exact processRaw_kinds index
  split
  · exact processArray_kinds index
  split
  · exact (KeepsKinds.onDyb _).bind fun _ => processValue_kinds index fun c items h => by cases h
  split
  · exact processObject_kinds index
  split
  · exact processContext_kinds index
  split
  · exact processDb_kinds index
  split
  · exact processFunction_kinds index
  · exact .pure _

theorem processRound_kinds : KeepsKinds (processRound host) := by
  refine Keeping.get_bind fun p => ?_
  split_ifs
  · exact .pure _
  · exact (KeepsKinds.onDyb _).bind fun header => processRecord_kinds header.1 header.2

theorem processLoop_keeps {I : Parser → Prop} (hround : Keeping I (processRound host)) {fuel : Nat}
    {answer : Bool} (hp : I p) (h : processLoop host fuel p = .ok (answer, p')) : I p' := by
  induction fuel generalizing p with
  | zero => cases h
  | succ fuel ih =>
    rw [processLoop] at h
    cases hr : processRound host p with
    | error f =>
      rw [hr] at h
      cases h
    | ok r =>
      obtain ⟨answer', p1⟩ := r
      have hp1 := hround p answer' p1 hp hr
      rw [hr] at h
      cases answer' with
      | some answer' =>
        cases h
        exact hp1
      | none => exact ih hp1 h

end Rounds

/-- What a stream is parsed to has the kinds, however the stream is made. -/
theorem process_kinds {host : Host} {fuel : Nat} {u u' : MMUnpacker} {answer : Bool}
    (hstore : u.store = []) (h : process host fuel u = .ok (answer, u')) : Kinds u' := by
  cases hloop : processLoop host fuel (processStart u) with
  | error e =>
    rw [process, hloop] at h
    cases h
  | ok r =>
    rw [process, hloop] at h
    cases h
    have hstart : Kinds (processStart u).toMMUnpacker := by
      refine ⟨fun e he => (by cases he), fun a c items ha i hi => ?_, rfl⟩
      have hs : (processStart u).store = [Gen.map false []] := by rw [processStart, hstore]; rfl
      rw [hs] at ha
      have hmem := List.mem_singleton.mp (List.mem_of_getElem? ha)
      cases hmem
      cases hi
    exact processLoop_keeps (I := fun p => Kinds p.toMMUnpacker) processRound_kinds hstart hloop

section Reading

variable {α β : Type}

def Forward (x : DybM α) : Prop := ∀ b a b', b.data.length < 2 ^ 32 → x b = .ok (a, b') →
  b'.data = b.data ∧ b.position ≤ b'.position

theorem Forward.bind {x : DybM α} {f : α → DybM β} (hx : Forward x) (hf : ∀ a, Forward (f a)) :
    Forward (x >>= f) := by
  intro b c b' hlt h
  obtain ⟨a, b1, h1, h2⟩ := step_eq_ok.mp h
  obtain ⟨hd1, hp1⟩ := hx b a b1 hlt h1
  obtain ⟨hd2, hp2⟩ := hf a b1 c b' (hd1 ▸ hlt) h2
  exact ⟨hd2.trans hd1, hp1.trans hp2⟩

theorem Forward.pure (a : α) : Forward (pure a : DybM α) := by
  intro b c b' _ h
  cases h
  exact ⟨rfl, le_rfl⟩

theorem takeByte_behind {b b' : Dybuf} {v : UInt8} (hlt : b.data.length < 2 ^ 32)
    (h : takeByte b = .ok (v, b')) : b'.data = b.data ∧ b.position < b'.position := by
  unfold takeByte at h
  cases hv : b.data[b.position]? with
  | none =>
    rw [hv] at h
    cases h
  | some w =>
    rw [hv] at h
    cases h
    have hin := (List.getElem?_eq_some_iff.mp hv).1
    refine ⟨rfl, ?_⟩
    show b.position < uint (b.position + 1)
    rw [uint_of_lt (by omega)]
    exact Nat.lt_succ_self _

theorem takeUint_forward (n acc : Nat) : Forward (Buffer.Next.takeUint n acc) := by
  induction n generalizing acc with
  | zero => exact .pure _
  | succ n ih =>
    refine Forward.bind (fun b v b' hlt h => ?_) fun v => ih _
    obtain ⟨hd, hp⟩ := takeByte_behind hlt h
    exact ⟨hd, hp.le⟩

theorem lookUint_forward (n i acc : Nat) : Forward (Buffer.Next.lookUint n i acc) := by
  induction n generalizing i acc with
  | zero => exact .pure _
  | succ n ih =>
    refine Forward.bind (fun b v b' _ h => ?_) fun v => ih _ _
    unfold lookByte at h
    cases hv : b.data[uint (b.position + i)]? with
    | none =>
      rw [hv] at h
      cases h
    | some w =>
      rw [hv] at h
      cases h
      exact ⟨rfl, le_rfl⟩

theorem dybNextVarU64_behind {b b' : Dybuf} {v : Nat} (hlt : b.data.length < 2 ^ 32)
    (h : dybNextVarU64 b = .ok (v, b')) : b'.data = b.data ∧ b.position < b'.position := by
  obtain ⟨first, b1, h1, h2⟩ := step_eq_ok.mp h
  obtain ⟨w, b2, h3, h4⟩ := step_eq_ok.mp h1
  cases h4
  obtain ⟨hd, hp⟩ := takeByte_behind hlt h3
  obtain ⟨hd2, hp2⟩ : b'.data = b1.data ∧ b1.position ≤ b'.position := by
    refine (?_ : Forward _) b1 v b' (hd ▸ hlt) h2
    split_ifs
    all_goals first | exact .pure _ | exact (takeUint_forward _ _).bind fun _ => .pure _
  exact ⟨hd2.trans hd, hp.trans_le hp2⟩

theorem dybNextVarU64_forward : Forward dybNextVarU64 := by
  intro b v b' hlt h
  obtain ⟨hd, hp⟩ := dybNextVarU64_behind hlt h
  exact ⟨hd, hp.le⟩

theorem dybNextVarS64_forward : Forward dybNextVarS64 := by
  refine dybNextVarU64_forward.bind fun u => ?_
  split_ifs <;> exact .pure _

theorem dybNextTypdex_forward : Forward Buffer.Typdex.dybNextTypdex := by
  refine (lookUint_forward 1 0 0).bind fun typ => ?_
  split_ifs
  all_goals first | exact .pure _ | exact (takeUint_forward _ _).bind fun _ => .pure _

def Readonly (x : DybM α) : Prop :=
  ∀ b a b', b.data.length < 2 ^ 32 → x b = .ok (a, b') → b'.data = b.data

theorem Forward.readonly {x : DybM α} (h : Forward x) : Readonly x :=
  fun b a b' hlt hx => (h b a b' hlt hx).1

theorem dybNextDataWithoutLen_readonly (len : Nat) :
    Readonly (Buffer.Next.dybNextDataWithoutLen len) := by
  intro b a b' _ h
  unfold Buffer.Next.dybNextDataWithoutLen at h
  rw [Buffer.Cursor.get_bind, Buffer.Cursor.ite_run] at h
  split at h
  · cases h
    rfl
  · cases h
    rfl

theorem dybNextCstringWithVarLen_readonly : Readonly dybNextCstringWithVarLen := by
  intro b a b' hlt h
  obtain ⟨len, b1, h1, h2⟩ := step_eq_ok.mp h
  obtain ⟨data, b2, h3, h4⟩ := step_eq_ok.mp h2
  cases h4
  have hd := dybNextVarU64_forward.readonly b len b1 hlt h1
  exact (dybNextDataWithoutLen_readonly _ b1 data _ (hd ▸ hlt) h3).trans hd

theorem cstringAt_readonly (string : Option Nat) : Readonly (Buffer.Next.cstringAt string) := by
  intro b a b' _ h
  unfold Buffer.Next.cstringAt at h
  rw [Buffer.Cursor.get_bind] at h
  cases string with
  | none => cases h
  | some off =>
    simp only [Buffer.Cursor.ite_run] at h
    split at h
    · cases h
      rfl
    · cases h

/-- The bytes that the parser keeps are a part of the stream behind its first. -/
def Limited (m : Nat) (p : Parser) : Prop :=
  p.dyb.data.length ≤ m + 1 ∧ ∀ bytes, .data bytes ∈ p.store → bytes.length ≤ m

variable {host : Host} {m : Nat} {p : Parser}

theorem Limited.store (h : Limited m p) {store : List Gen}
    (hs : ∀ bytes, .data bytes ∈ store → .data bytes ∈ p.store) :
    Limited m { p with store := store } :=
  ⟨h.1, fun bytes hb => h.2 bytes (hs bytes hb)⟩

theorem onDyb_limited {x : DybM α} (hm : m + 1 < 2 ^ 32) (hx : Readonly x) :
    Keeping (Limited m) (onDyb x) := by
  intro p a p' hp h
  cases hrun : x p.dyb with
  | error f =>
    rw [onDyb_error hrun] at h
    cases h
  | ok r =>
    rw [onDyb_ok hrun] at h
    cases h
    have hd := hx p.dyb r.1 r.2 (hp.1.trans_lt hm) hrun
    exact ⟨by rw [hd]; exact hp.1, hp.2⟩

theorem alloc_limited {g : Gen} (hg : ∀ bytes, g = .data bytes → bytes.length ≤ m) :
    Keeping (Limited m) (alloc g) := by
  intro p a p' hp h
  cases h
  refine ⟨hp.1, fun bytes hb => ?_⟩
  obtain hb | hb := List.mem_append.mp hb
  · exact hp.2 bytes hb
  · exact hg bytes (List.mem_singleton.mp hb).symm

theorem setObject_limited (a : Addr) {g : Gen} (hg : ∀ bytes, g ≠ .data bytes) :
    Keeping (Limited m) (setObject a g) := by
  refine Keeping.modify fun p hp => hp.store fun bytes hb => ?_
  obtain hb | hb := List.mem_or_eq_of_mem_set hb
  · exact hb
  · exact absurd hb.symm (hg bytes)

theorem getLastItem_limited : Keeping (Limited m) getLastItem := by
  refine Keeping.get_bind fun p => ?_
  cases p.stack with
  | nil => exact .throw _
  | cons a s => exact .pure _

theorem pushIntoStack_limited (index : Nat) (value : Addr) :
    Keeping (Limited m) (pushIntoStack host index value) := by
  refine getLastItem_limited.bind fun context => Keeping.get_bind fun p => ?_
  cases p.store[context]? with
  | none => exact .throw _
  | some g =>
    cases g with
    | map c items => exact setObject_limited _ fun bytes => by nofun
    | list items => exact setObject_limited _ fun bytes => by nofun
    | _ => exact .pure _

theorem pushKeyVal_limited {key : ProcM (List UInt8)} (hk : Keeping (Limited m) key)
    (value : Addr) : Keeping (Limited m) (pushKeyVal key value) := by
  refine getLastItem_limited.bind fun context => Keeping.get_bind fun p => ?_
  cases p.store[context]? with
  | none => exact .throw _
  | some g =>
    cases g with
    | map c items => exact hk.bind fun k => setObject_limited _ fun bytes => by nofun
    | _ => exact .pure _

theorem processValue_limited (index : Nat) {g : Gen}
    (hg : ∀ bytes, g = .data bytes → bytes.length ≤ m) :
    Keeping (Limited m) (processValue host index g) :=
  (alloc_limited hg).bind fun a => (pushIntoStack_limited index a).bind fun _ => .pure _

theorem processRaw_limited (hm : m + 1 < 2 ^ 32) (index : Nat) :
    Keeping (Limited m) (processRaw host index) := by
  intro p r p' hp h
  obtain ⟨⟨data, size⟩, p1, h1, h2⟩ := step_eq_ok.mp h
  obtain ⟨bytes, p2, h3, h4⟩ := step_eq_ok.mp h2
  have hlt : p.dyb.data.length < 2 ^ 32 := hp.1.trans_lt hm
  cases hnext : dybNextDataWithVarLen p.dyb with
  | error f =>
    rw [onDyb_error hnext] at h1
    cases h1
  | ok s =>
    obtain ⟨⟨data, size⟩, b2⟩ := s
    rw [onDyb_ok hnext] at h1
    cases h1
    obtain ⟨len, b1, h5, h6⟩ := step_eq_ok.mp hnext
    obtain ⟨data', b2, h7, h8⟩ := step_eq_ok.mp h6
    cases h8
    obtain ⟨hd1, hp1⟩ := dybNextVarU64_behind hlt h5
    have hd2 := dybNextDataWithoutLen_readonly _ b1 data b2 (hd1 ▸ hlt) h7
    have hdata : b2.data.length ≤ m + 1 := by
      rw [hd2, hd1]
      exact hp.1
    cases htake : takeData data (uint len) b2 with
    | error f =>
      rw [onDyb_error htake] at h3
      cases h3
    | ok t =>
      rw [onDyb_ok htake] at h3
      cases h3
      obtain ⟨hlen, hdyb⟩ : t.1.length ≤ m ∧ t.2 = b2 := by
        by_cases h0 : uint len = 0
        · rw [h0, takeData_zero] at htake
          cases htake
          exact ⟨Nat.zero_le _, rfl⟩
        · cases data with
          | none =>
            rw [takeData_none h0] at htake
            cases htake
          | some off =>
            have hoff : off = b1.position := by
              unfold Buffer.Next.dybNextDataWithoutLen at h7
              rw [Buffer.Cursor.get_bind, Buffer.Cursor.ite_run] at h7
              split at h7
              · cases h7
              · cases h7
                rfl
            by_cases hfit : off + uint len ≤ b2.data.length
            · rw [takeData_some h0 hfit] at htake
              cases htake
              refine ⟨(List.length_take_le _ _).trans ?_, rfl⟩
              omega
            · rw [takeData_outside h0 (not_le.mp hfit)] at htake
              cases htake
      have hread : Limited m { p with dyb := t.2 } := ⟨hdyb ▸ hdata, hp.2⟩
      refine processValue_limited index (fun bytes hb => ?_) _ r p' hread h4
      cases hb
      exact hlen

theorem modify_limited {g : Parser → Parser} (hd : ∀ p, (g p).dyb = p.dyb)
    (hs : ∀ p, (g p).store = p.store) : Keeping (Limited m) (modify g : ProcM Unit) :=
  Keeping.modify fun p hp => ⟨by rw [hd]; exact hp.1, by rw [hs]; exact hp.2⟩

theorem pushItem_limited (a : Addr) : Keeping (Limited m) (pushItem a) :=
  modify_limited (fun _ => rfl) fun _ => rfl

theorem popItem_limited : Keeping (Limited m) popItem := by
  refine Keeping.get_bind fun p => ?_
  cases p.stack with
  | nil => exact .throw _
  | cons a s => exact modify_limited (fun _ => rfl) fun _ => rfl

theorem popUntil_limited (obj : Addr) : Keeping (Limited m) (popUntil obj) := by
  intro p a p' hp h
  unfold popUntil at h
  split at h
  · cases h
    exact hp
  · cases h

theorem processArray_limited (hm : m + 1 < 2 ^ 32) (index : Nat) :
    Keeping (Limited m) (processArray host index) := by
  refine (onDyb_limited hm dybNextVarU64_forward.readonly).bind fun size => ?_
  split_ifs
  · exact (alloc_limited fun bytes => by nofun).bind fun a =>
      (pushIntoStack_limited index a).bind fun _ => (pushItem_limited a).bind fun _ => .pure _
  · exact popItem_limited.bind fun _ => .pure _

theorem processObject_limited (hm : m + 1 < 2 ^ 32) (index : Nat) :
    Keeping (Limited m) (processObject index) := by
  refine Keeping.get_bind fun p => ?_
  cases p.currentObj with
  | none =>
    refine (alloc_limited fun bytes => by nofun).bind fun obj =>
      (modify_limited (by intro _; rfl) (by intro _; rfl)).bind fun _ =>
        (onDyb_limited hm dybNextVarU64_forward.readonly).bind fun num =>
          Keeping.get_bind fun p => ?_
    cases Table.find Prod.fst (int32 num) p.idToClassName with
    | none => exact .pure _
    | some entry =>
      exact (pushItem_limited obj).bind fun _ =>
        (modify_limited (by intro _; rfl) (by intro _; rfl)).bind fun _ =>
          (onDyb_limited hm (cstringAt_readonly entry.2)).bind fun name =>
            (alloc_limited fun bytes => by nofun).bind fun string =>
              (pushKeyVal_limited (.pure _) string).bind fun _ => .pure _
  | some obj =>
    refine Keeping.get_bind fun p => ?_
    split_ifs
    · exact .pure _
    · exact (popUntil_limited obj).bind fun _ =>
        (modify_limited (by intro _; rfl) (by intro _; rfl)).bind fun _ =>
          popItem_limited.bind fun _ => .pure _

theorem processContext_limited (hm : m + 1 < 2 ^ 32) (index : Nat) :
    Keeping (Limited m) (processContext index) := by
  refine Keeping.get_bind fun p => ?_
  cases p.currentObj with
  | none => exact .pure _
  | some obj =>
    refine Keeping.get_bind fun p => ?_
    cases Table.find Prod.fst (int32 index) p.idToClassName with
    | none => exact .pure _
    | some entry =>
      exact (popUntil_limited obj).bind fun _ =>
        (alloc_limited fun bytes => by nofun).bind fun context =>
          (pushKeyVal_limited (onDyb_limited hm (cstringAt_readonly entry.2)) context).bind
            fun _ => (pushItem_limited context).bind fun _ => .pure _

theorem processDb_limited (hm : m + 1 < 2 ^ 32) (index : Nat) :
    Keeping (Limited m) (processDb index) := by
  unfold processDb
  split_ifs
  · refine (onDyb_limited hm dybNextVarU64_forward.readonly).bind fun num =>
      Keeping.get_bind fun p => ?_
    cases Table.find Prod.fst (int32 num) p.idToClassName with
    | some e => exact .pure _
    | none =>
      exact (onDyb_limited hm dybNextCstringWithVarLen_readonly).bind fun _ =>
        (modify_limited (by intro _; rfl) (by intro _; rfl)).bind fun _ => .pure _
  · exact .pure _

theorem processRecord_limited (hm : m + 1 < 2 ^ 32) (type index : Nat) :
    Keeping (Limited m) (processRecord host type index) := by
  have hvalue : ∀ {γ : Type} {x : DybM γ} {g : γ → Gen}, Readonly x →
      (∀ c bytes, g c ≠ .data bytes) →
      Keeping (Limited m) (do processValue host index (g (← onDyb x))) := fun hx hg =>
    (onDyb_limited hm hx).bind fun c => processValue_limited index fun bytes h =>
      absurd h (hg c bytes)
  have huint : ∀ n, Readonly (Buffer.Next.takeUint n 0) := fun n =>
    (takeUint_forward n 0).readonly
  unfold processRecord
  split
  · exact hvalue dybNextVarS64_forward.readonly fun c bytes => by nofun
  split
  · exact hvalue ((takeUint_forward 4 0).bind fun v => .pure _).readonly fun c bytes => by nofun
  split
  · exact hvalue ((takeUint_forward 8 0).bind fun v => .pure _).readonly fun c bytes => by nofun
  split
  · exact processRaw_limited hm index
  split
  · exact processArray_limited hm index
  split
  · exact hvalue dybNextVarU64_forward.readonly fun c bytes => by nofun
  split
  · exact processObject_limited hm index
  split
  · exact processContext_limited hm index
  split
  · exact processDb_limited hm index
  split
  · unfold processFunction
    split_ifs
    · exact (onDyb_limited hm dybNextVarU64_forward.readonly).bind fun _ => .pure _
    · exact .pure _
  · exact .pure _

theorem processRound_limited (hm : m + 1 < 2 ^ 32) : Keeping (Limited m) (processRound host) := by
  refine Keeping.get_bind fun p => ?_
  split_ifs
  · exact .pure _
  · exact (onDyb_limited hm dybNextTypdex_forward.readonly).bind fun header =>
      processRecord_limited hm header.1 header.2

end Reading

/-- Every string of bytes that a stream is parsed to is shorter than the stream. -/
theorem process_limited {host : Host} {fuel m : Nat} {u u' : MMUnpacker} {answer : Bool}
    (hstore : u.store = []) (hdata : u.dyb.data.length ≤ m + 1) (hm : m + 1 < 2 ^ 32)
    (h : process host fuel u = .ok (answer, u')) :
    ∀ bytes, .data bytes ∈ u'.store → bytes.length ≤ m := by
  cases hloop : processLoop host fuel (processStart u) with
  | error e =>
    rw [process, hloop] at h
    cases h
  | ok r =>
    rw [process, hloop] at h
    cases h
    have hstart : Limited m (processStart u) := by
      refine ⟨hdata, fun bytes hb => ?_⟩
      rw [processStart, hstore, List.nil_append] at hb
      cases List.mem_singleton.mp hb
    exact (processLoop_keeps (processRound_limited hm) hstart hloop).2

end LcClibs.Pack.Contents
