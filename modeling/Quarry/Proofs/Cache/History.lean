import Mathlib.Data.List.Induction
import Mathlib.Data.List.Nodup
import Quarry.Proofs.Cache

/-! A cache over a run of calls. Its entries are the last accepted settings of their keys, in the
order of those settings. What a call takes out is told call by call. An answer is that of the last
accepted setting of its key, and each lookup is counted once. The readings of the clock may
be any. -/

namespace Quarry.Cache

variable {β : Type}

/-- A call on a cache, with what the clock shows where it is read. -/
inductive Call (β : Type) where
  | get (key : Text) (version : Nat) (now : Float)
  | set (key : Text) (response : β) (lifetime : Float) (version : Nat) (now : Float)
  | invalidate
  | resize (bound : Nat)

def call (c : Cache β) : Call β → Cache β
  | .get key version now => (c.get key version now).2
  | .set key response lifetime version now => c.set key response lifetime version now
  | .invalidate => c.invalidate
  | .resize bound => c.resize (some bound)

/-- The cache after several calls. -/
def run (c : Cache β) (calls : List (Call β)) : Cache β := calls.foldl call c

namespace Call

def isGet : Call β → Bool
  | .get .. => true
  | _ => false

/-- The entry of an accepted setting: one that finds room for entries at all, with a lifetime that
counts as lasting. -/
def accepted? (lasting : Float → Bool) (bound : Nat) : Call β → Option (Entry β)
  | .set key response lifetime version now =>
    if 0 < bound ∧ lasting lifetime then some ⟨key, response, now, lifetime, version⟩ else none
  | _ => none

end Call

/-- What a run leaves to remember: the bound, the accepted settings in their order, and how many
lookups there were. -/
structure History (β : Type) where
  bound : Nat
  settings : List (Entry β)
  lookups : Nat

namespace History

def call (lasting : Float → Bool) (h : History β) (call : Call β) : History β where
  bound := match call with
    | .resize bound => bound
    | _ => h.bound
  settings := h.settings ++ (call.accepted? lasting h.bound).toList
  lookups := h.lookups + if call.isGet then 1 else 0

theorem settings_call (lasting : Float → Bool) (h : History β) (call : Call β) :
    (h.call lasting call).settings = h.settings ++ (call.accepted? lasting h.bound).toList := rfl

theorem lookups_call (lasting : Float → Bool) (h : History β) (call : Call β) :
    (h.call lasting call).lookups = h.lookups + if call.isGet then 1 else 0 := rfl

def run (lasting : Float → Bool) (h : History β) (calls : List (Call β)) : History β :=
  calls.foldl (call lasting) h

/-- The last accepted setting of a key. -/
def last? (h : History β) (key : Text) : Option (Entry β) :=
  (h.settings.filter (·.key == key)).getLast?

end History

/-- The settings that no later one of the same key replaces. -/
def latest : List (Entry β) → List (Entry β)
  | [] => []
  | e :: es => if es.any (·.key == e.key) then latest es else e :: latest es

theorem latest_concat (es : List (Entry β)) (e : Entry β) :
    latest (es ++ [e]) = (latest es).filter (·.key != e.key) ++ [e] := by
  induction es with
  | nil => rfl
  | cons e' es ih =>
    rw [List.cons_append, latest, latest, ih, List.any_append]
    by_cases hreplaced : es.any (·.key == e'.key)
    · simp [hreplaced]
    · rw [Bool.not_eq_true] at hreplaced
      rw [hreplaced]
      by_cases hkey : e'.key = e.key
      · simp [hkey]
      · simp [hkey, Ne.symm hkey]

/-- Each key is set last once. -/
theorem nodup_latest (es : List (Entry β)) : ((latest es).map (·.key)).Nodup := by
  induction es using List.reverseRecOn with
  | nil => exact List.nodup_nil
  | append_singleton es e ih =>
    rw [latest_concat, List.map_append]
    refine List.Nodup.append (ih.sublist (List.filter_sublist.map _)) (List.nodup_singleton _) ?_
    simp

theorem getLast?_of_mem_latest {es : List (Entry β)} {e : Entry β} (h : e ∈ latest es) :
    (es.filter (·.key == e.key)).getLast? = some e := by
  induction es using List.reverseRecOn with
  | nil => cases h
  | append_singleton es e' ih =>
    rw [latest_concat, List.mem_append, List.mem_filter, List.mem_singleton] at h
    rw [List.filter_append]
    rcases h with ⟨hmem, hkey⟩ | rfl
    · have hne : ¬ e'.key = e.key := fun heq => by simp [heq] at hkey
      simpa [hne] using ih hmem
    · simp

/-- The oldest entries leave, as many as are above the bound, and the rest stay. -/
def Evicts (bound : Nat) (es evicted rest : List (Entry β)) : Prop :=
  es = evicted ++ rest ∧ evicted.length = es.length - bound

theorem Evicts.length_le {bound : Nat} {es evicted rest : List (Entry β)}
    (h : Evicts bound es evicted rest) : rest.length ≤ bound := by
  have hlength := congrArg List.length h.1
  rw [List.length_append, h.2] at hlength
  omega

theorem Evicts.sublist {bound : Nat} {es evicted rest : List (Entry β)}
    (h : Evicts bound es evicted rest) : rest.Sublist es := h.1 ▸ List.sublist_append_right ..

theorem evicts_evict {c : Cache β} {bound : Nat} (h : c.bound = some bound) :
    ∃ evicted, Evicts bound c.entries evicted c.evict.entries := by
  refine ⟨c.entries.take (c.entries.length - bound), ?_, ?_⟩
  · rw [evict, h]
    exact (List.take_append_drop _ _).symm
  · rw [List.length_take]
    omega

@[simp] theorem bound_evict (c : Cache β) : c.evict.bound = c.bound := by
  rw [evict]
  split <;> rfl

@[simp] theorem hits_evict (c : Cache β) : c.evict.hits = c.hits := by
  rw [evict]
  split <;> rfl

@[simp] theorem misses_evict (c : Cache β) : c.evict.misses = c.misses := by
  rw [evict]
  split <;> rfl

/-- What a call makes of the entries. A lookup takes out only the entry of its own key, and only one
that is past. An accepted setting takes the place of what its key had, behind all others; if its key
was there, no other entry leaves. -/
def Step (lasting : Float → Bool) (bound : Nat) (es : List (Entry β)) : Call β →
    List (Entry β) → Prop
  | .get key version now, rest => rest = es.filter fun e => e.key != key || e.isFresh version now
  | .set key response lifetime version now, rest =>
    if 0 < bound ∧ lasting lifetime then
      ∃ evicted, Evicts bound
          (es.filter (·.key != key) ++ [⟨key, response, now, lifetime, version⟩]) evicted rest ∧
        (key ∈ es.map (·.key) → evicted = [])
    else rest = es
  | .invalidate, rest => rest = []
  | .resize bound, rest => ∃ evicted, Evicts bound es evicted rest

/-- The cache is what its history tells: bounded, ordered by the last accepted settings, one entry
for a key, each lookup counted, and answering with the last accepted setting only. -/
structure Behaves (lasting : Float → Bool) (c : Cache β) (h : History β) : Prop where
  bounded : c.bound = some h.bound ∧ c.entries.length ≤ h.bound
  ordered : c.entries.Sublist (latest h.settings)
  distinct : (c.entries.map (·.key)).Nodup
  counted : c.hits + c.misses = h.lookups
  step : ∀ call, Step lasting h.bound c.entries call (c.call call).entries
  answer : ∀ key version now response, (c.get key version now).1 = some response →
    ∃ e, h.last? key = some e ∧ e.response = response ∧ e.version = version ∧
      now - e.createdAt < e.lifetime

/-- A lifetime lasts when it is not over before it begins. One that is not a number does. -/
def lasts (lifetime : Float) : Bool := !(lifetime ≤ 0)

/-- What each call preserves. -/
structure Follows (c : Cache β) (h : History β) : Prop where
  bound : c.bound = some h.bound
  within : c.entries.length ≤ h.bound
  ordered : c.entries.Sublist (latest h.settings)
  counted : c.hits + c.misses = h.lookups

namespace Follows

variable {c : Cache β} {h : History β}

theorem distinct (hf : c.Follows h) : (c.entries.map (·.key)).Nodup :=
  (nodup_latest h.settings).sublist (hf.ordered.map _)

theorem accepts_eq (hf : c.Follows h) (lifetime : Float) :
    c.accepts lifetime = decide (0 < h.bound ∧ lasts lifetime) := by
  rw [accepts, hf.bound, Bool.eq_iff_iff]
  simp [lasts, Nat.pos_iff_ne_zero]

/-- The entry that a key is looked up by is the only one it has. -/
theorem eq_of_entry? (hf : c.Follows h) {key : Text} {e e' : Entry β}
    (hentry : c.entry? key = some e) (hmem : e' ∈ c.entries) (hkey : e'.key = key) : e' = e := by
  obtain ⟨hfound, hfoundKey⟩ := mem_of_entry? hentry
  exact List.inj_on_of_nodup_map hf.distinct hmem hfound (hkey.trans hfoundKey.symm)

theorem entries_get (hf : c.Follows h) (key : Text) (version : Nat) (now : Float) :
    (c.get key version now).2.entries =
      c.entries.filter fun e => e.key != key || e.isFresh version now := by
  rw [get]
  cases hentry : c.entry? key with
  | none =>
    refine (List.filter_eq_self.2 fun e he => ?_).symm
    have hother : ¬ e.key = key := by simpa using List.find?_eq_none.1 hentry e he
    simp [hother]
  | some e =>
    have hown : ∀ e' ∈ c.entries, (e'.key != key || e'.isFresh version now) =
        (e'.key != key || e.isFresh version now) := by
      intro e' hmem
      by_cases hkey : e'.key = key
      · rw [hf.eq_of_entry? hentry hmem hkey]
      · rw [bne_iff_ne.2 hkey, Bool.true_or, Bool.true_or]
    rw [List.filter_congr hown]
    by_cases hfresh : e.isFresh version now
    · simp [hfresh]
    · simp [hfresh, erase]

/-- A key that is set again makes room for itself. -/
theorem entries_set (hf : c.Follows h) (key : Text) (response : β) (lifetime : Float)
    (version : Nat) (now : Float) :
    Step lasts h.bound c.entries (.set key response lifetime version now)
      (c.set key response lifetime version now).entries := by
  rw [Step, set, hf.accepts_eq]
  by_cases haccepted : 0 < h.bound ∧ lasts lifetime
  · rw [if_pos haccepted, if_pos (decide_eq_true haccepted)]
    obtain ⟨evicted, hevicts⟩ := evicts_evict
      (c := { c with
        entries := (c.erase key).entries ++ [⟨key, response, now, lifetime, version⟩] })
      hf.bound
    refine ⟨evicted, hevicts, fun hpresent => ?_⟩
    obtain ⟨e, he, hkey⟩ := List.mem_map.1 hpresent
    have hroom : (c.erase key).entries.length < c.entries.length :=
      List.length_filter_lt_length_iff_exists.2 ⟨e, he, by simp [hkey]⟩
    have hwithin := hf.within
    refine List.eq_nil_of_length_eq_zero (hevicts.2.trans ?_)
    rw [List.length_append, List.length_singleton]
    omega
  · rw [if_neg haccepted, if_neg (by simpa using haccepted)]

theorem step (hf : c.Follows h) (call : Call β) :
    Step lasts h.bound c.entries call (c.call call).entries := by
  cases call with
  | get key version now => exact hf.entries_get key version now
  | set key response lifetime version now => exact hf.entries_set key response lifetime version now
  | invalidate => rfl
  | resize bound => exact evicts_evict (c := { c with bound := some bound }) rfl

end Follows

/-- What a call leaves is as the accepted settings are ordered, its own among them. -/
theorem Step.ordered {lasting : Float → Bool} {h : History β} {es rest : List (Entry β)}
    {call : Call β} (hstep : Step lasting h.bound es call rest)
    (hes : es.Sublist (latest h.settings)) :
    rest.Sublist (latest (h.call lasting call).settings) := by
  rw [History.settings_call]
  cases call with
  | get key version now =>
    subst hstep
    simpa [Call.accepted?] using List.filter_sublist.trans hes
  | set key response lifetime version now =>
    rw [Call.accepted?]
    by_cases haccepted : 0 < h.bound ∧ lasting lifetime
    · rw [Step, if_pos haccepted] at hstep
      obtain ⟨evicted, hevicts, -⟩ := hstep
      rw [if_pos haccepted, Option.toList_some, latest_concat]
      exact hevicts.sublist.trans ((hes.filter _).append_right _)
    · rw [Step, if_neg haccepted] at hstep
      subst hstep
      simpa [haccepted] using hes
  | invalidate =>
    subst hstep
    exact List.nil_sublist _
  | resize bound =>
    obtain ⟨evicted, hevicts⟩ := hstep
    simpa [Call.accepted?] using hevicts.sublist.trans hes

theorem Step.within {lasting : Float → Bool} {h : History β} {es rest : List (Entry β)}
    {call : Call β} (hstep : Step lasting h.bound es call rest) (hes : es.length ≤ h.bound) :
    rest.length ≤ (h.call lasting call).bound := by
  cases call with
  | get key version now =>
    subst hstep
    exact Nat.le_trans (List.length_filter_le _ _) hes
  | set key response lifetime version now =>
    by_cases haccepted : 0 < h.bound ∧ lasting lifetime
    · rw [Step, if_pos haccepted] at hstep
      obtain ⟨evicted, hevicts, -⟩ := hstep
      exact hevicts.length_le
    · rw [Step, if_neg haccepted] at hstep
      subst hstep
      exact hes
  | invalidate =>
    subst hstep
    exact Nat.zero_le _
  | resize bound =>
    obtain ⟨evicted, hevicts⟩ := hstep
    exact hevicts.length_le

/-- A lookup is a hit or a miss, and nothing else is. -/
theorem counts_call (c : Cache β) (call : Call β) :
    (c.call call).hits + (c.call call).misses =
      c.hits + c.misses + if call.isGet then 1 else 0 := by
  cases call with
  | get key version now =>
    rw [Cache.call, get]
    split
    · split
      · exact Nat.add_right_comm _ _ _
      · rfl
    · rfl
  | set key response lifetime version now =>
    rw [Cache.call, set]
    split
    · simp [erase, Call.isGet]
    · rfl
  | invalidate => rfl
  | resize bound => simp [Cache.call, resize, Call.isGet]

theorem bound_call {c : Cache β} {h : History β} (lasting : Float → Bool)
    (hbound : c.bound = some h.bound) (call : Call β) :
    (c.call call).bound = some (h.call lasting call).bound := by
  cases call with
  | get key version now =>
    rw [← show c.bound = some (h.call lasting (.get key version now)).bound from hbound,
      Cache.call, get]
    split
    · split <;> rfl
    · rfl
  | set key response lifetime version now =>
    rw [← show c.bound = some
      (h.call lasting (.set key response lifetime version now)).bound from hbound, Cache.call, set]
    split
    · simp [erase]
    · rfl
  | invalidate => exact hbound
  | resize bound => simp [Cache.call, resize, History.call]

namespace Follows

variable {c : Cache β} {h : History β}

theorem call (hf : c.Follows h) (call : Call β) : (c.call call).Follows (h.call lasts call) where
  bound := bound_call lasts hf.bound call
  within := (hf.step call).within hf.within
  ordered := (hf.step call).ordered hf.ordered
  counted := by rw [counts_call, hf.counted, History.lookups_call]

theorem run (hf : c.Follows h) (calls : List (Call β)) :
    (c.run calls).Follows (h.run lasts calls) := by
  induction calls generalizing c h with
  | nil => exact hf
  | cons call calls ih => exact ih (hf.call call)

theorem answer (hf : c.Follows h) {key : Text} {version : Nat} {now : Float} {response : β}
    (hget : (c.get key version now).1 = some response) :
    ∃ e, h.last? key = some e ∧ e.response = response ∧ e.version = version ∧
      now - e.createdAt < e.lifetime := by
  obtain ⟨e, hentry, hfresh, hresponse⟩ := entry?_of_get hget
  obtain ⟨hmem, rfl⟩ := mem_of_entry? hentry
  rw [Entry.isFresh, Bool.and_eq_true, beq_iff_eq, decide_eq_true_eq] at hfresh
  exact ⟨e, getLast?_of_mem_latest (hf.ordered.subset hmem), hresponse, hfresh⟩

theorem behaves (hf : c.Follows h) : c.Behaves lasts h where
  bounded := ⟨hf.bound, hf.within⟩
  ordered := hf.ordered
  distinct := hf.distinct
  counted := hf.counted
  step := hf.step
  answer _ _ _ _ := hf.answer

end Follows

/-- After any calls, whatever the clock showed, a cache is what its history tells. -/
theorem behaves_run (bound : Nat) (calls : List (Call β)) :
    ((empty bound).run calls).Behaves lasts ((⟨bound, [], 0⟩ : History β).run lasts calls) := by
  have hempty : (empty (some bound)).Follows (⟨bound, [], 0⟩ : History β) :=
    ⟨rfl, Nat.zero_le _, List.nil_sublist _, rfl⟩
  exact (hempty.run calls).behaves

/-- A lifetime that is not a number is not above zero, but it makes an entry all the same, and that
entry takes the place of another. -/
theorem not_behaves_of_positive :
    let calls : List (Call Nat) :=
      [.set (Text.ofChars ['a']) 1 1000 1 0, .set (Text.ofChars ['b']) 2 (0 / 0) 1 0]
    ¬ ((empty (some 1)).run calls).Behaves (fun lifetime => 0 < lifetime)
      ((⟨1, [], 0⟩ : History Nat).run (fun lifetime => 0 < lifetime) calls) := by
  intro calls hbehaves
  have hordered := (hbehaves.ordered.map (·.response)).subset
  revert hordered
  decide +kernel

end Quarry.Cache
