import Mathlib
import LcClibs.Pack.Parsing
import LcClibs.Pack.Grammar

namespace LcClibs.Pack.Acceptance

open Platform Lib Buffer.Cursor Buffer.Next Buffer.Typdex Buffer.VarInt Mmo.Object
open Pack.Records Pack.Process Pack.Nesting Pack.Parsing Pack.Grammar

section Empty

def FailsEmpty {α : Type} (x : ProcM α) : Prop := ∀ p, p.stack = [] → ∃ f, x p = .error f

theorem FailsEmpty.bind {α β : Type} {x : ProcM α} (hx : FailsEmpty x) (f : α → ProcM β) :
    FailsEmpty (x >>= f) := by
  intro p hp
  obtain ⟨e, he⟩ := hx p hp
  exact ⟨e, Parsing.bind_error he⟩

theorem onDyb_failsEmpty {α β : Type} {x : DybM α} {f : α → ProcM β}
    (hf : ∀ a, FailsEmpty (f a)) : FailsEmpty (onDyb x >>= f) := by
  intro p hp
  cases hx : x p.dyb with
  | error e => exact ⟨e, Parsing.bind_error (onDyb_error hx)⟩
  | ok r =>
    obtain ⟨a, d⟩ := r
    rw [Parsing.bind_ok (onDyb_ok hx)]
    exact hf a _ hp

theorem pushIntoStack_failsEmpty (host : Host) (index : Nat) (a : Addr) :
    FailsEmpty (pushIntoStack host index a) := by
  intro p hp
  refine ⟨.nullDeref, ?_⟩
  rw [pushIntoStack, getLastItem, bind_assoc, Parsing.get_bind, hp]
  rfl

theorem alloc_failsEmpty {β : Type} {g : Gen} {f : Addr → ProcM β} (hf : ∀ a, FailsEmpty (f a)) :
    FailsEmpty (alloc g >>= f) := by
  intro p hp
  exact hf _ _ hp

theorem processValue_failsEmpty (host : Host) (index : Nat) (g : Gen) :
    FailsEmpty (processValue host index g) :=
  alloc_failsEmpty fun a => (pushIntoStack_failsEmpty host index a).bind _

theorem popItem_failsEmpty : FailsEmpty popItem := by
  intro p hp
  refine ⟨.nullDeref, ?_⟩
  rw [popItem, Parsing.get_bind, hp]
  rfl

theorem processArray_failsEmpty (host : Host) (index : Nat) :
    FailsEmpty (processArray host index) := by
  refine onDyb_failsEmpty fun size => ?_
  split
  · exact alloc_failsEmpty fun a => (pushIntoStack_failsEmpty host index a).bind _
  · exact popItem_failsEmpty.bind _

theorem processRecord_failsEmpty (host : Host) {type : Nat} (index : Nat) (h : UsesLast type) :
    FailsEmpty (processRecord host type index) := by
  obtain rfl | rfl | rfl | rfl | rfl | rfl := h
  · exact onDyb_failsEmpty fun v => processValue_failsEmpty host index _
  · exact onDyb_failsEmpty fun v => processValue_failsEmpty host index _
  · exact onDyb_failsEmpty fun v => processValue_failsEmpty host index _
  · have hraw : processRecord host pkrdexRaw index = processRaw host index := rfl
    rw [hraw, processRaw_eq]
    exact onDyb_failsEmpty fun len => onDyb_failsEmpty fun data => onDyb_failsEmpty fun bytes =>
      processValue_failsEmpty host index _
  · exact processArray_failsEmpty host index
  · exact onDyb_failsEmpty fun v => processValue_failsEmpty host index _

end Empty

section Rounds

variable {host : Host} {data : List UInt8} {r : Addr} {bare : Bool} {p p' : Parser} {σ : Shape}
  {bs : List UInt8}

/-- What is lowest on the stack: the roots, as long as they have not been taken off. -/
def lowest (bare : Bool) (r : Addr) : List Addr := if bare then [] else [r]

/-- The state of a parser where a loose reading has come. -/
structure Reads (data : List UInt8) (r : Addr) (bare : Bool) (p : Parser) (σ : Shape)
    (bs : List UInt8) : Prop where
  rel : Rel data.length (lowest bare r) p σ bs
  data_eq : p.dyb.data = data
  roots : p.roots = some r

theorem Reads.kept {σ' : Shape} {bs' : List UInt8} (h : Reads data r bare p σ bs)
    (hrel : Rel data.length (lowest bare r) p' σ' bs') (hk : Kept p p') :
    Reads data r bare p' σ' bs' :=
  ⟨hrel, hk.data.trans h.data_eq, hk.roots.trans h.roots⟩

/-- A round that goes on as the loose reading does, or that refuses or faults where there is
none. -/
def Answers (data : List UInt8) (r : Addr) (x : Except Fault (Option Bool × Parser)) :
    Option (Bool × Shape × List UInt8) → Prop
  | some (bare, σ, bs) => ∃ p', x = .ok (none, p') ∧ Reads data r bare p' σ bs
  | none => (∃ f, x = .error f) ∨ ∃ p', x = .ok (some false, p')

/-- Where the scan does not go on from a violation, the loose reading is the scan. -/
theorem Reads.answers {n : Nat} {x : Except Fault (Option Bool × Parser)} {v : Verdict}
    (h : Reads data r bare p σ bs) (hn : n = data.length)
    (hm : Matches False n (lowest bare r) p x v) :
    Answers data r x (looseScan bare v) := by
  subst hn
  cases v with
  | accept =>
    obtain ⟨p', -, -, hx, -⟩ := hm
    exact .inr ⟨p', hx⟩
  | next σ' bs' =>
    obtain ⟨p', hx, h', hk⟩ := hm
    exact ⟨p', hx, h.kept h' hk⟩
  | reject => exact .inl (hm.resolve_right fun hg => hg.1)

theorem Reads.stack_ne_nil (h : Reads data r bare p σ bs) (hb : bare = false ∨ σ.closed ≠ none) :
    p.stack ≠ [] := by
  cases bare with
  | false => exact h.rel.stack_ne_nil
  | true =>
    obtain ⟨σ', hc⟩ := Option.ne_none_iff_exists'.mp (hb.resolve_left (by decide))
    obtain ⟨p', hp, -⟩ := h.rel.pop.1 σ' hc
    intro hnil
    obtain ⟨f, hf⟩ := popItem_failsEmpty p hnil
    rw [hp] at hf
    cases hf

theorem Rel.popRoots (h : Rel data.length (lowest false r) p σ bs) (hc : σ.closed = none) :
    popItem p = .ok ((), { p with stack := [] }) ∧
      Rel data.length (lowest true r) { p with stack := [] } σ bs := by
  have hst : p.stack = [r] := h.pop.2 hc
  refine ⟨popItem_cons hst, h.cursor, (fun a ha => by cases ha), ?_, h.names⟩
  obtain ⟨outer, hs⟩ := h.stacked
  have hone : outer = [] ∧ ∀ num k, σ.object ≠ some (num, some k) := by
    have hlen : p.stack.length = 1 := by rw [hst]; rfl
    cases ho : σ.object with
    | none =>
      rw [(hs.idle ho).2, List.length_append] at hlen
      exact ⟨List.length_eq_zero_iff.mp (Nat.succ.inj hlen), fun num k hk => by cases hk⟩
    | some o =>
      obtain ⟨num, inside⟩ := o
      obtain ⟨obj, -, -, -, -, hlost, hin⟩ := hs.busy num inside ho
      cases inside with
      | none =>
        rw [hlost rfl, List.length_append] at hlen
        exact ⟨List.length_eq_zero_iff.mp (Nat.succ.inj hlen), fun num k hk => by cases hk⟩
      | some k =>
        obtain ⟨-, inner, -, -, hi⟩ := hin k rfl
        rw [hi, List.length_append, List.length_cons, List.length_append] at hlen
        have hr : (lowest false r).length = 1 := rfl
        omega
  obtain ⟨rfl, hno⟩ := hone
  refine ⟨[], hs.outer_length, fun ho => ⟨(hs.idle ho).1, rfl⟩, fun num inside ho => ?_⟩
  obtain ⟨obj, hcur, hnum, hlt, hout, -, -⟩ := hs.busy num inside ho
  refine ⟨obj, hcur, hnum, hlt, List.not_mem_nil, fun _ => rfl, fun k hk => ?_⟩
  exact absurd (ho.trans (by rw [hk])) (hno num k)

def arrayAfter (host : Host) (index size : Nat) : ProcM (Option Bool) := do
  if size > 0 then
    let list ← alloc (.list [])
    pushIntoStack host index list
    pushItem list
    return none
  else
    popItem
    return none

theorem processArray_eq (host : Host) (index : Nat) :
    processArray host index = onDyb dybNextVarU64 >>= arrayAfter host index := rfl

theorem processArray_answers (h : Reads data r bare p σ bs) (index : Nat)
    (hb : bare = false ∨ σ.closed ≠ none) :
    Answers data r (processArray host index p) (looseArray bare σ bs) := by
  have hm : Matches True data.length (lowest bare r) p (processArray host index p)
      (scanArray σ bs) := processArray_matches h.rel (h.stack_ne_nil hb) index
  have hread := h.rel.read dybNextVarU64_decodes (arrayAfter host index)
  rw [← processArray_eq] at hread
  rw [scanArray] at hm
  cases hv : readVar bs with
  | none =>
    have hnone : looseArray bare σ bs = none := by rw [looseArray, hv]; rfl
    rw [hv] at hread
    rw [hnone]
    exact .inl hread
  | some v =>
    obtain ⟨size, bs1⟩ := v
    rw [hv] at hread hm
    rw [after] at hm
    rw [looseArray_eq hv]
    by_cases hsize : size > 0
    · rw [if_pos hsize] at hm ⊢
      obtain ⟨p', hx, h', hk⟩ := hm
      exact ⟨p', hx, h.kept h' hk⟩
    rw [if_neg hsize] at hm ⊢
    cases hc : σ.closed with
    | some σ' =>
      rw [hc] at hm
      obtain ⟨p', hx, h', hk⟩ := hm
      exact ⟨p', hx, h.kept h' hk⟩
    | none =>
      obtain rfl := hb.resolve_right fun hne => hne hc
      obtain ⟨k, h1, heq⟩ := hread
      obtain ⟨hpop, h2⟩ := Rel.popRoots h1 hc
      refine ⟨_, ?_, h2, h.data_eq, h.roots⟩
      rw [heq, arrayAfter, if_neg hsize, Parsing.bind_ok hpop]
      rfl

def keepName (num : Int) : ProcM (Option Bool) := do
  let (name, _) ← onDyb dybNextCstringWithVarLen
  modify fun p => { p with idToClassName := p.idToClassName ++ [(num, name)] }
  return none

def nameAfter (num : Int) (len : Nat) : ProcM (Option Bool) := do
  let data ← onDyb (dybNextDataWithoutLen (uint len))
  modify fun p => { p with idToClassName := p.idToClassName ++ [(num, data)] }
  return none

theorem keepName_eq (num : Int) : keepName num = onDyb dybNextVarU64 >>= nameAfter num := by
  rw [keepName, dybNextCstringWithVarLen_run]
  simp only [bind_assoc, pure_bind]
  rfl

theorem Rel.moved {n pos : Nat} {base : List Addr} {num : Int} {e : Option Nat} {f : Bool}
    (h : Rel n base p σ bs) (hpos : pos ≤ n) (hn : NameOf p.dyb (num, e) (num, f)) :
    Rel n base { p with
        dyb := { p.dyb with position := pos }
        idToClassName := p.idToClassName ++ [(num, e)] }
      { σ with names := σ.names ++ [(num, f)] } (p.dyb.data.drop pos) where
  cursor :=
    { length_eq := h.cursor.length_eq
      limit_eq := h.cursor.limit_eq
      lt := h.cursor.lt
      position_eq := by
        rw [List.length_drop, h.cursor.length_eq]
        exact Nat.add_sub_of_le hpos
      rest_eq := rfl }
  containers := h.containers
  stacked := by
    obtain ⟨outer, hs⟩ := h.stacked
    exact ⟨outer, hs.outer_length, hs.idle, hs.busy⟩
  names := List.rel_append h.names (.cons hn .nil)

theorem nameAfter_ok {pos len : Nat} {num : Int} {e : Option Nat}
    (hd : dybNextDataWithoutLen (uint len) p.dyb = .ok (e, { p.dyb with position := pos })) :
    nameAfter num len p = .ok (none, { p with
      dyb := { p.dyb with position := pos }
      idToClassName := p.idToClassName ++ [(num, e)] }) := by
  rw [nameAfter, Parsing.bind_ok (onDyb_ok hd)]
  rfl

/-- Where the end offset of a name leaves the range of `uint`, the position falls back. -/
theorem Reads.wrapped {num : Int} {len : Nat} (h : Reads data r bare p σ bs)
    (h0 : uint len ≠ 0) (hwrap : ¬data.length - bs.length + uint len < 2 ^ 32) :
    ∃ p', nameAfter num len p = .ok (none, p') ∧ Reads data r bare p'
      { σ with names := σ.names ++ [(num, decide (0 ∈ bs))] }
      (data.drop (data.length - bs.length + uint len - 2 ^ 32)) := by
  have hpos := h.rel.cursor.position_eq
  have hlim := h.rel.cursor.limit_eq
  have hn := h.rel.cursor.lt
  have hu := uint_lt len
  have hd := @dybNextDataWithoutLen_wraps p.dyb (uint len) (Nat.pos_of_ne_zero h0) (by omega)
    (by omega) hu (by omega)
  have hp : data.length - bs.length = p.dyb.position := by omega
  have hle : p.dyb.position + uint len - 2 ^ 32 ≤ data.length := by omega
  have hrest : p.dyb.data.drop p.dyb.position = bs := h.rel.cursor.rest_eq
  have hname : NameOf p.dyb (num, some p.dyb.position) (num, decide (0 ∈ bs)) :=
    ⟨rfl, by simp [hrest]⟩
  rw [hp]
  obtain ⟨pos, heq⟩ : ∃ pos, pos = p.dyb.position + uint len - 2 ^ 32 := ⟨_, rfl⟩
  rw [← heq] at hd hle ⊢
  have hmoved := Rel.moved h.rel hle hname
  rw [h.data_eq] at hmoved
  exact ⟨_, nameAfter_ok hd, hmoved, h.data_eq, h.roots⟩

theorem keepName_answers (h : Reads data r bare p σ bs) (num : Int) :
    Answers data r (keepName num p) (looseName data bare σ num bs) := by
  have hm := nameRecord_matches h.rel num
  have hread := h.rel.read dybNextVarU64_decodes (nameAfter num)
  rw [← keepName_eq] at hread
  cases hv : readVar bs with
  | none =>
    have hloose : looseName data bare σ num bs = none := by
      rw [looseName, scanName, wrappedName, hv]
      rfl
    rw [hv] at hread
    rw [hloose]
    exact .inl hread
  | some v =>
    obtain ⟨len, bs1⟩ := v
    by_cases hwrap : uint len ≠ 0 ∧ ¬uint len ≤ bs1.length ∧
        ¬data.length - bs1.length + uint len < 2 ^ 32
    · obtain ⟨h0, hfit, hlt⟩ := hwrap
      rw [hv] at hread
      obtain ⟨k, h1, heq⟩ := hread
      have h1 : Reads data r bare { p with dyb := advance k p.dyb } σ bs1 :=
        ⟨h1, h.data_eq, h.roots⟩
      have hloose : looseName data bare σ num bs = wrappedName data bare σ num bs := by
        rw [looseName, scanName, hv, after, if_neg h0, if_neg hfit, if_neg hlt]
      have hw : wrappedName data bare σ num bs =
          some (bare, { σ with names := σ.names ++ [(num, decide (0 ∈ bs1))] },
            data.drop (data.length - bs1.length + uint len - 2 ^ 32)) := by
        rw [wrappedName, hv]
        rfl
      rw [hloose, hw, heq]
      exact h1.wrapped h0 hlt
    · have hnext : ∃ σ' bs', scanName data.length σ num bs = .next σ' bs' := by
        rw [scanName, hv, after]
        split
        · exact ⟨_, _, rfl⟩
        split
        · exact ⟨_, _, rfl⟩
        split
        · exact ⟨_, _, rfl⟩
        · exact absurd ⟨by assumption, by assumption, by assumption⟩ hwrap
      obtain ⟨σ', bs', hs⟩ := hnext
      rw [hs] at hm
      rw [looseName, hs]
      obtain ⟨p', hx, h', hk⟩ := hm
      exact ⟨p', hx, h.kept h' hk⟩

def dbAfter (num : Nat) : ProcM (Option Bool) := do
  match Table.find Prod.fst (int32 num) (← get).idToClassName with
  | some _ => return some false
  | none => keepName (int32 num)

theorem processDb_eq : processDb pkrdbClassNames = onDyb dybNextVarU64 >>= dbAfter := rfl

theorem processDb_answers (h : Reads data r bare p σ bs) (index : Nat) :
    Answers data r (processDb index p) (looseDb data bare σ index bs) := by
  by_cases hi : index = pkrdbClassNames
  swap
  · have hloose : looseDb data bare σ index bs = none := by
      cases hv : readVar bs with
      | none =>
        rw [looseDb, hv]
        rfl
      | some v => rw [looseDb_eq hv, if_neg fun hc => hi hc.1]
    rw [hloose, processDb, if_neg hi]
    exact .inr ⟨p, rfl⟩
  subst hi
  have hread := h.rel.read dybNextVarU64_decodes dbAfter
  rw [← processDb_eq] at hread
  cases hv : readVar bs with
  | none =>
    have hloose : looseDb data bare σ pkrdbClassNames bs = none := by
      rw [looseDb, hv]
      rfl
    rw [hv] at hread
    rw [hloose]
    exact .inl hread
  | some v =>
    obtain ⟨num, bs1⟩ := v
    rw [hv] at hread
    obtain ⟨k, h1, heq⟩ := hread
    have hfind := find_names h1.names (int32 num)
    rw [looseDb_eq hv, heq, dbAfter, Parsing.get_bind]
    cases hf : Table.find Prod.fst (int32 num) σ.names with
    | some f =>
      rw [hf] at hfind
      obtain ⟨e, he, -⟩ := hfind
      rw [he, if_neg fun hc => by cases hc.2]
      exact .inr ⟨_, rfl⟩
    | none =>
      rw [hf] at hfind
      rw [hfind, if_pos ⟨rfl, rfl⟩]
      exact keepName_answers ⟨h1, h.data_eq, h.roots⟩ (int32 num)

theorem processRecord_answers (h : Reads data r bare p σ bs) (type index : Nat) :
    Answers data r (processRecord host type index p)
      (if bare ∧ σ.closed = none ∧ UsesLast type then none
      else if type = pkrdexArray then looseArray bare σ bs
      else if type = pkrdexDb then looseDb data bare σ index bs
      else looseScan bare (scanRecord data.length σ type index bs)) := by
  by_cases hbare : bare = true ∧ σ.closed = none ∧ UsesLast type
  · rw [if_pos hbare]
    obtain ⟨rfl, hc, hu⟩ := hbare
    exact .inl (processRecord_failsEmpty host index hu p (h.rel.pop.2 hc))
  rw [if_neg hbare]
  have hne : UsesLast type → bare = false ∨ σ.closed ≠ none := by
    intro hu
    cases bare with
    | false => exact .inl rfl
    | true => exact .inr fun hc => hbare ⟨rfl, hc, hu⟩
  by_cases ha : type = pkrdexArray
  · subst ha
    rw [if_pos rfl]
    exact processArray_answers h index (hne (by decide))
  rw [if_neg ha]
  by_cases hd : type = pkrdexDb
  · subst hd
    rw [if_pos rfl]
    exact processDb_answers h index
  rw [if_neg hd]
  have hm := processRecord_matches host h.rel type index fun hu => h.stack_ne_nil (hne hu)
  exact h.answers rfl (hm.mono fun hg => hg.elim ha hd)

variable (host) in
theorem Reads.round (h : Reads data r bare p σ bs) (hbs : bs ≠ []) :
    Answers data r (processRound host p) (looseRecord data bare σ bs) := by
  have hr : dybGetRemainder p.dyb ≠ 0 := by
    rw [uintSub_remainder h.rel]
    exact fun h0 => hbs (List.length_eq_zero_iff.mp h0)
  have hread := h.rel.read dybNextTypdex_decodes fun header => processRecord host header.1 header.2
  rw [processRound, Parsing.get_bind, Parsing.ite_run, if_neg hr]
  cases hh : readHeader bs with
  | none =>
    have hloose : looseRecord data bare σ bs = none := by
      rw [looseRecord, hh]
      rfl
    rw [hh] at hread
    rw [hloose]
    exact .inl hread
  | some v =>
    obtain ⟨⟨type, index⟩, bs1⟩ := v
    rw [hh] at hread
    obtain ⟨k, h1, heq⟩ := hread
    rw [looseRecord_eq hh]
    have h1 : Reads data r bare { p with dyb := advance k p.dyb } σ bs1 :=
      ⟨h1, h.data_eq, h.roots⟩
    exact heq ▸ processRecord_answers h1 type index

end Rounds

section Runs

variable {host : Host} {data : List UInt8} {r : Addr} {bare bareEnd : Bool} {p p' : Parser}
  {σ σEnd : Shape} {bs : List UInt8} {u : MMUnpacker}

variable (host) in
/-- A loose reading to the end is a run of `process` that returns true. -/
theorem Reads.accepts (h : Reads data r bare p σ bs) (hl : Loose data bare σ bs bareEnd σEnd) :
    ∃ fuel p', processLoop host fuel p = .ok (true, p') := by
  induction hl generalizing p with
  | done bare σ => exact ⟨1, p, processLoop_answer 0 (processRound_nil h.rel)⟩
  | record hr _ ih =>
    have ha := h.round host fun hbs => by
      subst hbs
      cases hr
    rw [hr] at ha
    obtain ⟨p1, hround, h1⟩ := ha
    obtain ⟨fuel, p', hloop⟩ := ih h1
    exact ⟨fuel + 1, p', (processLoop_next fuel hround).trans hloop⟩

/-- A run of `process` that returns true reads the stream loosely to its end. -/
theorem Reads.loose {fuel : Nat} (h : Reads data r bare p σ bs)
    (hp : processLoop host fuel p = .ok (true, p')) :
    ∃ bareEnd σEnd, Loose data bare σ bs bareEnd σEnd ∧ Reads data r bareEnd p' σEnd [] := by
  induction fuel generalizing bare p σ bs with
  | zero => cases hp
  | succ fuel ih =>
    by_cases hbs : bs = []
    · subst hbs
      rw [processLoop_answer fuel (processRound_nil h.rel)] at hp
      cases hp
      exact ⟨bare, σ, .done bare σ, h⟩
    have ha := h.round host hbs
    cases hr : looseRecord data bare σ bs with
    | none =>
      rw [hr] at ha
      obtain ⟨f, hf⟩ | ⟨p1, hround⟩ := ha
      · rw [processLoop, hf] at hp
        cases hp
      · rw [processLoop_answer fuel hround] at hp
        cases hp
    | some v =>
      obtain ⟨bare1, σ1, bs1⟩ := v
      rw [hr] at ha
      obtain ⟨p1, hround, h1⟩ := ha
      rw [processLoop_next fuel hround] at hp
      obtain ⟨bareEnd, σEnd, hl, hend⟩ := ih h1 hp
      exact ⟨bareEnd, σEnd, .record hr hl, hend⟩

theorem process_eq_ok {fuel : Nat} {u' : MMUnpacker} :
    process host fuel u = .ok (true, u') ↔
      ∃ p', processLoop host fuel (processStart u) = .ok (true, p') ∧ p'.toMMUnpacker = u' := by
  rw [process]
  cases processLoop host fuel (processStart u) with
  | error e =>
    constructor
    · intro h
      cases h
    · rintro ⟨p', h, -⟩
      cases h
  | ok a =>
    obtain ⟨answer, p1⟩ := a
    constructor
    · intro h
      cases h
      exact ⟨p1, rfl, rfl⟩
    · rintro ⟨p', h, rfl⟩
      cases h
      rfl

theorem allocMMUnpackerWithData_reads {bytes : List UInt8} (hlt : bytes.length < 2 ^ 32)
    (hu : allocMMUnpackerWithData (some bytes) bytes.length = some u) :
    Reads bytes u.store.length false (processStart u) Shape.start bytes := by
  have h := allocMMUnpackerWithData_grounded hlt hu
  refine ⟨h.rel, ?_, h.roots⟩
  cases hu
  rfl

theorem Reads.stack (h : Reads data r false p σ bs) (hout : σ.outer = 0) (ho : σ.object = none) :
    p.stack = [r] := by
  obtain ⟨outer, hs⟩ := h.rel.stacked
  rw [(hs.idle ho).2, List.length_eq_zero_iff.mp (hs.outer_length.trans hout)]
  rfl

/-- `process` returns true for the documented streams and no others, with the roots alone on
the stack. -/
def Conforms (host : Host) (bytes : List UInt8) (u : MMUnpacker) : Prop :=
  ((∃ fuel u', process host fuel u = .ok (true, u')) ↔
    ∃ names, Documented ⟨[], []⟩ bytes names) ∧
  ∀ fuel u', process host fuel u = .ok (true, u') →
    ∃ roots, u'.roots = some roots ∧ u'.stack = [roots]

/-- The format is kept to where a stream is a documented one whose class numbers are different
`int`s, or is none and has a record that cannot be carried out. -/
theorem conforms_iff (host : Host) {bytes : List UInt8} (hlt : bytes.length < 2 ^ 32)
    (hu : allocMMUnpackerWithData (some bytes) bytes.length = some u) :
    Conforms host bytes u ↔
      (∃ names, Documented ⟨[], []⟩ bytes names ∧
        (names.map fun num : Nat => int32 num).Nodup) ∨
      (¬∃ names, Documented ⟨[], []⟩ bytes names) ∧
        ¬∃ bareEnd σEnd, Loose bytes false Shape.start bytes bareEnd σEnd := by
  have hstart := allocMMUnpackerWithData_reads hlt hu
  have hmirrors : Mirrors ⟨[], []⟩ Shape.start := ⟨rfl, trivial, List.nodup_nil⟩
  have haccepts : (∃ fuel u', process host fuel u = .ok (true, u')) ↔
      ∃ bareEnd σEnd, Loose bytes false Shape.start bytes bareEnd σEnd := by
    constructor
    · rintro ⟨fuel, u', h⟩
      obtain ⟨p', hp, -⟩ := process_eq_ok.mp h
      obtain ⟨bareEnd, σEnd, hl, -⟩ := hstart.loose hp
      exact ⟨bareEnd, σEnd, hl⟩
    · rintro ⟨bareEnd, σEnd, hl⟩
      obtain ⟨fuel, p', hp⟩ := hstart.accepts host hl
      exact ⟨fuel, p'.toMMUnpacker, process_eq_ok.mpr ⟨p', hp, rfl⟩⟩
  rw [Conforms, haccepts]
  constructor
  · rintro ⟨hiff, -⟩
    by_cases hdoc : ∃ names, Documented ⟨[], []⟩ bytes names
    · obtain ⟨bareEnd, σEnd, hl⟩ := hiff.mpr hdoc
      obtain ⟨names, hd⟩ := hdoc
      exact .inl ⟨names, hd, (hd.ends hlt hmirrors hl).1⟩
    · exact .inr ⟨hdoc, fun hl => hdoc (hiff.mp hl)⟩
  · rintro (⟨names, hd, hnodup⟩ | ⟨hdoc, hstuck⟩)
    · obtain ⟨σStart, hstarted⟩ := hd.loose hlt hmirrors hnodup
      refine ⟨iff_of_true ⟨false, σStart, hstarted⟩ ⟨names, hd⟩, fun fuel u' h => ?_⟩
      obtain ⟨p', hp, rfl⟩ := process_eq_ok.mp h
      obtain ⟨bareEnd, σEnd, hl, hend⟩ := hstart.loose hp
      obtain ⟨-, rfl, hout, ho⟩ := hd.ends hlt hmirrors hl
      exact ⟨u.store.length, hend.roots, hend.stack hout ho⟩
    · refine ⟨iff_of_false hstuck hdoc, fun fuel u' h => ?_⟩
      exact absurd (haccepts.mp ⟨fuel, u', h⟩) hstuck

def sampleStream : List UInt8 :=
  [0x71, 0, 2, 0x41, 0, 0x58, 0, 0x60, 0x08, 5, 0x58, 0x40, 2, 0x08, 7, 0x40, 0]

theorem documented_sampleStream : Documented ⟨[], []⟩ sampleStream [0] :=
  .record rfl <| .record rfl <| .record rfl <| .record rfl <| .record rfl <| .record rfl <|
    .record rfl <| .record rfl <| .done [0]

theorem conforms_iff_sampleStream :
    ∃ u, allocMMUnpackerWithData (some sampleStream) 17 = some u ∧
      Conforms .little sampleStream u := by
  have hlt : sampleStream.length < 2 ^ 32 := by decide
  exact ⟨_, rfl, (conforms_iff .little hlt rfl).mpr
    (.inl ⟨[0], documented_sampleStream, List.nodup_singleton _⟩)⟩

/-- An array that is begun and never ended. -/
theorem not_conforms :
    ¬∀ (host : Host) (bytes : List UInt8) (u : MMUnpacker), bytes.length < 2 ^ 32 →
      allocMMUnpackerWithData (some bytes) bytes.length = some u → Conforms host bytes u := by
  intro h
  have hlt : [0x40, 0x01].length < 2 ^ 32 := by decide
  have hc := h .little [0x40, 0x01] _ hlt rfl
  have hstart := @allocMMUnpackerWithData_reads _ [0x40, 0x01] hlt rfl
  have hl : Loose [0x40, 0x01] false Shape.start [0x40, 0x01] false ⟨1, none, []⟩ :=
    .record (by decide +kernel) (.done false ⟨1, none, []⟩)
  obtain ⟨fuel, p', hp⟩ := hstart.accepts .little hl
  obtain ⟨names, hd⟩ := hc.1.mp ⟨fuel, p'.toMMUnpacker, process_eq_ok.mpr ⟨p', hp, rfl⟩⟩
  cases hd with
  | record hr hd =>
    cases hr
    cases hd with
    | record hr _ => cases hr

end Runs

end LcClibs.Pack.Acceptance
