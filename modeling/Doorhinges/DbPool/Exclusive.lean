import Doorhinges.DbPool.Model
import Doorhinges.Lib.Threads

/-!
# A pool connection has one user at a time

A thread holds an entry from the claim under the mutex to the release under the
mutex. In every interleaving the busy entries are exactly the held ones, each
held by one thread, and a thread only uses the handle of the entry it holds.
-/
namespace Doorhinges.DbPool

open Lib.Program
open Lib.Machine
open Lib.Threads

/-- What a thread holds; `stray` is a claim outside the pool, which never happens. -/
inductive View where
  | free
  | holds (i : Nat)
  | stray
  deriving DecidableEq

/-- The entry a call is about. -/
def Cmd.entry : Cmd → Option Nat
  | .claimIde | .usleep => none
  | .testConn i | .mysqlPing i | .mysqlClose i | .mysqlInit i | .mysqlRealConnect i => some i
  | .mysqlErrno i | .mysqlQuery i _ | .mysqlAffectedRows i | .mysqlStoreResult i => some i
  | .setIde i => some i

def mayCall : View → Cmd → Prop
  | .free, c => c.entry = none
  | .holds i, c => c.entry = some i
  | .stray, _ => True

def called (gmaxConnNum : Nat) (v : View) (c : Cmd) (r : Reply) : View :=
  match v, c with
  | .free, .claimIde =>
    match r.index? with
    | none => .free
    | some i => if i < gmaxConnNum then .holds i else .stray
  | .holds _, .setIde _ => .free
  | v, _ => v

def rules (gmaxConnNum : Nat) : Discipline Cmd Reply Empty View where
  mayCall := mayCall
  called := called gmaxConnNum
  maySend _ _ := True
  sent v _ := v
  mayMark _ _ := True
  marked v _ := v

/-- At its end a thread holds nothing. -/
def Done (v : View) : Prop := v = .free ∨ v = .stray

section Keeps

variable {n : Nat} {α : Type}

/-- A stray thread may do anything. -/
theorem keeps_stray (p : Act α) {Q : α → View → Prop} (hQ : ∀ a, Q a .stray) :
    Keeps (rules n) p .stray Q := by
  induction p with
  | ret a => exact hQ a
  | crash => trivial
  | call c k ih => exact ⟨trivial, fun r => ih r⟩
  | send c k ih => exact ⟨trivial, ih⟩
  | mark e k ih => cases e

/-- A call on the held entry other than its release changes nothing. -/
theorem keeps_own {c : Cmd} {i : Nat} (hc : c.entry = some i) (hs : ∀ j, c ≠ .setIde j)
    {Q : Reply → View → Prop} (hQ : ∀ r, Q r (.holds i)) :
    Keeps (rules n) (call c) (.holds i) Q := by
  refine ⟨hc, fun r => ?_⟩
  show Q r (called n (.holds i) c r)
  have hv : called n (.holds i) c r = .holds i := by
    cases c <;> first | rfl | exact absurd rfl (hs _)
  rw [hv]
  exact hQ r

theorem keeps_callIf {b : Prop} [Decidable b] {c : Cmd} {r : Reply} {i : Nat}
    (hc : c.entry = some i) (hs : ∀ j, c ≠ .setIde j) {Q : Reply → View → Prop}
    (hQ : ∀ r, Q r (.holds i)) : Keeps (rules n) (callIf b c r) (.holds i) Q := by
  unfold callIf
  rw [keeps_ite]
  exact ⟨fun _ => keeps_own hc hs hQ, fun _ => hQ r⟩

theorem dbCloseConn_keeps (i : Nat) {Q : Unit → View → Prop} (hQ : ∀ a, Q a (.holds i)) :
    Keeps (rules n) (dbCloseConn i) (.holds i) Q := by
  unfold dbCloseConn
  rw [keeps_bind]
  refine keeps_own rfl (by simp) fun set => ?_
  rw [keeps_ite]
  refine ⟨fun _ => ?_, fun _ => hQ ()⟩
  rw [keeps_bind]
  exact keeps_own rfl (by simp) fun _ => hQ ()

theorem dbCreateConn_keeps (i : Nat) {Q : Int → View → Prop} (hQ : ∀ a, Q a (.holds i)) :
    Keeps (rules n) (dbCreateConn i) (.holds i) Q := by
  unfold dbCreateConn
  rw [keeps_bind]
  refine dbCloseConn_keeps i fun _ => ?_
  rw [keeps_bind]
  refine keeps_own rfl (by simp) fun conn => ?_
  rw [keeps_ite]
  refine ⟨fun _ => ?_, fun _ => hQ _⟩
  rw [keeps_bind]
  refine keeps_own rfl (by simp) fun connected => ?_
  rw [keeps_ite]
  refine ⟨fun _ => hQ _, fun _ => ?_⟩
  rw [keeps_bind]
  refine keeps_own rfl (by simp) fun errno => ?_
  rw [keeps_bind]
  exact dbCloseConn_keeps i fun _ => hQ _

/-- The outcome of an allocation: the entry is held exactly when it is handed out. -/
def Allocated (n : Nat) : Option Nat → View → Prop
  | none, v => Done v
  | some i, v => v = .holds i ∧ i < n ∨ v = .stray

theorem readyConn_keeps {i : Nat} (hi : i < n) :
    Keeps (rules n) (readyConn i) (.holds i) (Allocated n) := by
  unfold readyConn
  rw [keeps_bind]
  refine keeps_own rfl (by simp) fun set => ?_
  rw [keeps_bind]
  refine keeps_callIf rfl (by simp) fun ping => ?_
  rw [keeps_ite]
  refine ⟨fun _ => .inl ⟨rfl, hi⟩, fun _ => ?_⟩
  rw [keeps_bind]
  refine dbCreateConn_keeps i fun ret => ?_
  rw [keeps_ite]
  refine ⟨fun _ => .inl ⟨rfl, hi⟩, fun _ => ?_⟩
  rw [keeps_bind]
  exact ⟨rfl, fun _ => .inl rfl⟩

theorem dbAllocConn_keeps (tries : Nat) :
    Keeps (rules n) (dbAllocConn tries) .free (Allocated n) := by
  induction tries with
  | zero => exact .inl rfl
  | succ tries ih =>
    unfold dbAllocConn
    rw [keeps_bind, keeps_call]
    refine ⟨rfl, fun r => ?_⟩
    show Keeps (rules n) _ (called n .free .claimIde r) _
    unfold called
    cases hr : r.index? with
    | none =>
      dsimp only
      rw [keeps_bind]
      exact ⟨rfl, fun _ => ih⟩
    | some i =>
      dsimp only
      by_cases hi : i < n
      · rw [if_pos hi]
        exact readyConn_keeps hi
      · rw [if_neg hi]
        refine keeps_stray _ fun a => ?_
        cases a with
        | none => exact .inr rfl
        | some j => exact .inr rfl

theorem dbReleaseConn_keeps {i : Nat} (hi : i < n) {Q : Unit → View → Prop} (hQ : Q () .free) :
    Keeps (rules n) (dbReleaseConn n i) (.holds i) Q := by
  unfold dbReleaseConn
  rw [if_neg (by omega), keeps_bind]
  exact ⟨rfl, fun _ => hQ⟩

theorem dbExe_keeps (i : Nat) (sql : List UInt8) {Q : Int → View → Prop}
    (hQ : ∀ a, Q a (.holds i)) : Keeps (rules n) (dbExe i sql) (.holds i) Q := by
  unfold dbExe
  rw [keeps_bind]
  refine keeps_own rfl (by simp) fun r => ?_
  rw [keeps_ite]
  exact ⟨fun _ => hQ _, fun _ => hQ _⟩

/-- Use of an allocated entry: what is done with the held entry leaves nothing held. -/
theorem keeps_allocated {β : Type} {tries : Nat} {f : Option Nat → Act β}
    (hnone : Keeps (rules n) (f none) .free fun _ => Done)
    (hsome : ∀ i, i < n → Keeps (rules n) (f (some i)) (.holds i) fun _ => Done) :
    Keeps (rules n) (dbAllocConn tries >>= f) .free fun _ => Done := by
  rw [keeps_bind]
  refine keeps_mono (dbAllocConn_keeps tries) fun o v hv => ?_
  cases o with
  | none =>
    rcases hv with rfl | rfl
    · exact hnone
    · exact keeps_stray _ fun _ => .inr rfl
  | some i =>
    rcases hv with ⟨rfl, hi⟩ | rfl
    · exact hsome i hi
    · exact keeps_stray _ fun _ => .inr rfl

theorem dbUpdateInsertDel_keeps (sql : Option (List UInt8)) :
    Keeps (rules n) (dbUpdateInsertDel n sql) .free fun _ => Done := by
  unfold dbUpdateInsertDel
  cases sql with
  | none => exact .inl rfl
  | some sql =>
    refine keeps_allocated (.inl rfl) fun index hi => ?_
    rw [keeps_bind]
    refine dbExe_keeps index sql fun ret => ?_
    rw [keeps_bind]
    refine keeps_callIf rfl (by simp) fun affected => ?_
    rw [keeps_bind]
    refine dbReleaseConn_keeps hi ?_
    rw [keeps_ite, keeps_ite]
    exact ⟨fun _ => .inl rfl, fun _ => ⟨fun _ => .inl rfl, fun _ => .inl rfl⟩⟩

theorem dbSelect_keeps (sql : Option (List UInt8)) (pdb : Option (List (List DataFmt))) :
    Keeps (rules n) (dbSelect n sql pdb) .free fun _ => Done := by
  unfold dbSelect
  cases sql with
  | none => exact .inl rfl
  | some sql =>
    cases pdb with
    | none => exact .inl rfl
    | some pdb =>
      refine keeps_allocated (.inl rfl) fun index hi => ?_
      rw [keeps_bind]
      refine dbExe_keeps index sql fun ret => ?_
      rw [keeps_bind]
      refine keeps_callIf rfl (by simp) fun recordset => ?_
      rw [keeps_bind]
      refine dbReleaseConn_keeps hi ?_
      cases recordset.rows? with
      | none => exact .inl rfl
      | some rows =>
        dsimp only
        rw [keeps_ite]
        exact ⟨fun _ => .inl rfl, fun _ => .inl rfl⟩

theorem program_keeps (q : Query) : Keeps (rules n) (program n q) .free fun _ => Done := by
  cases q with
  | updateInsertDel sql => exact dbUpdateInsertDel_keeps sql
  | select sql pdb => exact dbSelect_keeps sql pdb

end Keeps

section Pool

def statusOf (pool : List DbConn) (i : Nat) : Option Status := (pool[i]?).map (·.status)

@[simp] theorem statusOf_setConn (pool : List DbConn) (j : Nat) (b : Bool) :
    statusOf (pool.modify j (setConn b)) = statusOf pool := by
  funext i
  simp only [statusOf, List.getElem?_modify]
  cases pool[i]? with
  | none => rfl
  | some e => by_cases hij : j = i <;> simp [hij, setConn]

theorem statusOf_setStatus_self (pool : List DbConn) (i : Nat) (st : Status) :
    statusOf (pool.modify i (setStatus st)) i = (statusOf pool i).map fun _ => st := by
  simp only [statusOf, List.getElem?_modify]
  cases pool[i]? <;> simp [setStatus]

theorem statusOf_setStatus_ne (pool : List DbConn) {i j : Nat} (h : j ≠ i) (st : Status) :
    statusOf (pool.modify j (setStatus st)) i = statusOf pool i := by
  simp only [statusOf, List.getElem?_modify, if_neg h]
  cases pool[i]? <;> rfl

/-- The entry a claim finds is idle. -/
theorem statusOf_found {pool : List DbConn} {i : Nat}
    (h : some i = pool.findIdx? (·.status = .ide)) : statusOf pool i = some .ide := by
  obtain ⟨hi, hst, -⟩ := List.findIdx?_eq_some_iff_getElem.mp h.symm
  have hide : pool[i].status = .ide := by simpa using hst
  simp [statusOf, List.getElem?_eq_getElem hi, hide]

end Pool

/-- The busy entries are the held ones, each held once. -/
structure Held (n : Nat) (pool : List DbConn) (vs : Nat → Option View) : Prop where
  size : pool.length = n
  real : ∀ t, vs t ≠ some .stray
  busy : ∀ t i, vs t = some (.holds i) → statusOf pool i = some .busy
  one : ∀ t u i, vs t = some (.holds i) → vs u = some (.holds i) → t = u
  owned : ∀ i, statusOf pool i = some .busy → ∃ t, vs t = some (.holds i)

variable {n : Nat} {pool : List DbConn} {vs : Nat → Option View}

/-- A thread that neither takes nor gives back an entry. -/
theorem Held.still (h : Held n pool vs) {pool' : List DbConn} (hlen : pool'.length = pool.length)
    (hst : statusOf pool' = statusOf pool) {t : Nat} {v : View} (hv : vs t = some v) :
    Held n pool' (Function.update vs t (some v)) := by
  have hsame : Function.update vs t (some v) = vs := by rw [← hv, Function.update_eq_self]
  rw [hsame]
  exact ⟨hlen.trans h.size, h.real, hst ▸ h.busy, h.one, hst ▸ h.owned⟩

theorem Held.start (h : Held n pool vs) {t : Nat} (hv : ∀ v, vs t = some v → Done v) :
    Held n pool (Function.update vs t (some .free)) := by
  have hback : ∀ u i, Function.update vs t (some .free) u = some (.holds i) →
      vs u = some (.holds i) := by
    intro u i hu
    by_cases hut : u = t
    · subst hut
      simp at hu
    · simpa [hut] using hu
  refine ⟨h.size, fun u => ?_, fun u i hu => h.busy u i (hback u i hu),
    fun u w i hu hw => h.one u w i (hback u i hu) (hback w i hw), fun i hi => ?_⟩
  · by_cases hut : u = t
    · subst hut
      simp
    · simpa [hut] using h.real u
  · obtain ⟨u, hu⟩ := h.owned i hi
    have hut : u ≠ t := by
      rintro rfl
      rcases hv _ hu with hd | hd <;> cases hd
    exact ⟨u, by simpa [hut] using hu⟩

theorem Held.claim (h : Held n pool vs) {t i : Nat} (hv : vs t = some .free)
    (hi : statusOf pool i = some .ide) :
    Held n (pool.modify i (setStatus .busy)) (Function.update vs t (some (.holds i))) := by
  have hfree : ∀ u, vs u ≠ some (.holds i) := by
    intro u hu
    have := h.busy u i hu
    simp [hi] at this
  have hback : ∀ u j, Function.update vs t (some (.holds i)) u = some (.holds j) →
      u = t ∧ j = i ∨ u ≠ t ∧ vs u = some (.holds j) := by
    intro u j hu
    by_cases hut : u = t
    · subst hut
      exact .inl ⟨rfl, by simpa [eq_comm] using hu⟩
    · exact .inr ⟨hut, by simpa [hut] using hu⟩
  refine ⟨by simpa using h.size, fun u => ?_, fun u j hu => ?_, fun u w j hu hw => ?_,
    fun j hj => ?_⟩
  · by_cases hut : u = t
    · subst hut
      simp
    · simpa [hut] using h.real u
  · rcases hback u j hu with ⟨-, rfl⟩ | ⟨-, hu⟩
    · rw [statusOf_setStatus_self, hi]
      rfl
    · have hij : i ≠ j := by
        rintro rfl
        exact hfree u hu
      rw [statusOf_setStatus_ne pool hij]
      exact h.busy u j hu
  · rcases hback u j hu with ⟨hut, huj⟩ | ⟨-, hu'⟩
    · rcases hback w j hw with ⟨hwt, -⟩ | ⟨-, hw'⟩
      · exact hut.trans hwt.symm
      · exact absurd (huj ▸ hw') (hfree w)
    · rcases hback w j hw with ⟨-, hwj⟩ | ⟨-, hw'⟩
      · exact absurd (hwj ▸ hu') (hfree u)
      · exact h.one u w j hu' hw'
  · by_cases hij : i = j
    · subst hij
      exact ⟨t, by simp⟩
    · rw [statusOf_setStatus_ne pool hij] at hj
      obtain ⟨u, hu⟩ := h.owned j hj
      have hut : u ≠ t := by
        rintro rfl
        simp [hv] at hu
      exact ⟨u, by simpa [hut] using hu⟩

theorem Held.release (h : Held n pool vs) {t i : Nat} (hv : vs t = some (.holds i)) :
    Held n (pool.modify i (setStatus .ide)) (Function.update vs t (some .free)) := by
  have hback : ∀ u j, Function.update vs t (some .free) u = some (.holds j) →
      vs u = some (.holds j) ∧ j ≠ i := by
    intro u j hu
    by_cases hut : u = t
    · subst hut
      simp at hu
    · have hu : vs u = some (.holds j) := by simpa [hut] using hu
      refine ⟨hu, ?_⟩
      rintro rfl
      exact hut (h.one u t j hu hv)
  refine ⟨by simpa using h.size, fun u => ?_, fun u j hu => ?_,
    fun u w j hu hw => h.one u w j (hback u j hu).1 (hback w j hw).1, fun j hj => ?_⟩
  · by_cases hut : u = t
    · subst hut
      simp
    · simpa [hut] using h.real u
  · obtain ⟨hu, hji⟩ := hback u j hu
    rw [statusOf_setStatus_ne pool (Ne.symm hji)]
    exact h.busy u j hu
  · have hij : i ≠ j := by
      rintro rfl
      rw [statusOf_setStatus_self] at hj
      cases hs : statusOf pool i <;> simp [hs] at hj
    rw [statusOf_setStatus_ne pool hij] at hj
    obtain ⟨u, hu⟩ := h.owned j hj
    have hut : u ≠ t := by
      rintro rfl
      exact hij (by simpa [hv] using hu)
    exact ⟨u, by simpa [hut] using hu⟩

theorem Held.call (h : Held n pool vs) {t : Nat} {v : View} {c : Cmd} {r : Reply}
    {pool' : List DbConn} (hv : vs t = some v) (hc : mayCall v c)
    (hs : serve pool c r = some pool') :
    Held n pool' (Function.update vs t (some (called n v c r))) := by
  cases v with
  | stray => exact absurd hv (h.real t)
  | free =>
    cases c with
    | claimIde =>
      cases r with
      | index o =>
        simp only [serve, Option.ite_none_right_eq_some] at hs
        obtain ⟨ho, hs⟩ := hs
        cases o with
        | none =>
          obtain rfl := Option.some.inj hs
          exact h.still rfl rfl hv
        | some i =>
          obtain rfl := Option.some.inj hs
          have hide := statusOf_found ho
          have hi : i < n := by
            have hlt : i < pool.length := by
              by_contra hge
              simp [statusOf, List.getElem?_eq_none (by omega : pool.length ≤ i)] at hide
            have := h.size
            omega
          have hview : called n .free .claimIde (.index (some i)) = .holds i := by
            simp [called, Reply.index?, hi]
          rw [hview]
          exact h.claim hv hide
      | done => cases hs
      | flag _ => cases hs
      | num _ => cases hs
      | result _ => cases hs
    | usleep =>
      cases r with
      | done =>
        obtain rfl := Option.some.inj hs
        exact h.still rfl rfl hv
      | index _ => cases hs
      | flag _ => cases hs
      | num _ => cases hs
      | result _ => cases hs
    | _ => cases hc
  | holds i =>
    cases c with
    | claimIde => cases hc
    | usleep => cases hc
    | setIde j =>
      obtain rfl : j = i := Option.some.inj hc
      cases r with
      | done =>
        obtain rfl := Option.some.inj hs
        exact h.release hv
      | index _ => cases hs
      | flag _ => cases hs
      | num _ => cases hs
      | result _ => cases hs
    | testConn j =>
      cases r with
      | flag b =>
        simp only [serve, Option.ite_none_right_eq_some, Option.some.injEq] at hs
        obtain ⟨-, rfl⟩ := hs
        exact h.still rfl rfl hv
      | _ => cases hs
    | mysqlClose j =>
      cases r with
      | done =>
        obtain rfl := Option.some.inj hs
        exact h.still (by simp) (by simp) hv
      | _ => cases hs
    | mysqlInit j =>
      cases r with
      | flag b =>
        obtain rfl := Option.some.inj hs
        exact h.still (by simp) (by simp) hv
      | _ => cases hs
    | _ =>
      cases r <;> cases hs
      exact h.still rfl rfl hv

theorem held_preserved : Preserves serve (rules n) (program n) .free (fun _ => Done)
    (fun _ _ _ _ => True) (Held n) where
  keeps q := program_keeps q
  start _ _ _ h hv := h.start fun v hs => (hv v hs).elim fun _ hd => hd
  call _ _ _ _ _ _ _ h hv hc _ hs := h.call hv hc hs
  mark _ _ _ _ e _ _ _ := by cases e

abbrev PoolSys := Lib.Threads.Sys (List DbConn) Cmd Reply Empty View Outcome

/-- Thread `t` is between the claim of entry `i` and its release. -/
def holds (s : PoolSys) (t i : Nat) : Prop := views s t = some (.holds i)

structure Exclusive (s : PoolSys) : Prop where
  unshared : ∀ t u i, holds s t i → holds s u i → t = u
  busy : ∀ t i, holds s t i → statusOf s.shared i = some .busy
  used : ∀ t c k v i, s.thread t = some ⟨.call c k, v⟩ → c.entry = some i → holds s t i
  idle : (∀ t, outside (s.thread t) = true) → ∀ e ∈ s.shared, e.status = .ide

theorem exclusive_of_held {s : PoolSys} (h : Kept (rules n) (fun _ => Done) (Held n) s) :
    Exclusive s := by
  refine ⟨fun t u i => h.holds.one t u i, fun t i => h.holds.busy t i, fun t c k v i ht hc => ?_,
    fun hall e he => ?_⟩
  · have hview : views s t = some v := by simp [views, ht]
    have hmay : mayCall v c := (h.keeps t _ ht).1
    cases v with
    | stray => exact absurd hview (h.holds.real t)
    | free =>
      have hnone : c.entry = none := hmay
      simp [hnone] at hc
    | holds j =>
      have hj : c.entry = some j := hmay
      obtain rfl : j = i := by simpa [hj] using hc
      exact hview
  · obtain ⟨i, hi⟩ := List.mem_iff_getElem?.mp he
    cases hst : e.status with
    | ide => rfl
    | busy =>
      obtain ⟨t, ht⟩ := h.holds.owned i (by simp [statusOf, hi, hst])
      obtain ⟨a, hd⟩ := h.post_of_outside (hall t) ht
      rcases hd with hd | hd <;> cases hd

/-- In every interleaving of any number of threads on a pool that starts idle, a
held entry has one holder, is marked busy and is used by its holder only, and all
entries are idle when nobody is inside. -/
theorem pool_exclusive (pool : List DbConn) (hidle : ∀ e ∈ pool, e.status = .ide)
    (ls : List (Label Query Reply)) (s : PoolSys)
    (hr : run (step serve (rules pool.length) (program pool.length) .free) ⟨pool, fun _ => none⟩
      ls = some s) : Exclusive s := by
  have hstart : Held pool.length pool fun _ => none := by
    refine ⟨rfl, fun _ => by simp, fun _ _ h => (by cases h), fun _ _ _ h => (by cases h),
      fun i hi => ?_⟩
    obtain ⟨e, he, hst⟩ := Option.map_eq_some_iff.mp hi
    rw [hidle e (List.mem_of_getElem? he)] at hst
    cases hst
  exact exclusive_of_held ((Kept.start hstart).run held_preserved (throughout_trivial ls _) hr)

/-- Two threads on a pool of one connection. -/
def contended : List (Label Query Reply) :=
  [.start 0 (.updateInsertDel (some [])), .start 1 (.updateInsertDel (some [])),
    .act 0 (.index (some 0)), .act 1 (.index none), .act 0 (.flag true), .act 0 (.num 0)]

theorem pool_exclusive_contended : ∃ s, run (step serve (rules 1) (program 1) .free)
    ⟨[⟨true, .ide⟩], fun _ => none⟩ contended = some s ∧ Exclusive s := by
  obtain ⟨s, hr⟩ : ∃ s, run (step serve (rules 1) (program 1) .free)
      ⟨[⟨true, .ide⟩], fun _ => none⟩ contended = some s := ⟨_, rfl⟩
  exact ⟨s, hr, pool_exclusive [⟨true, .ide⟩] (by decide) contended s hr⟩

end Doorhinges.DbPool
