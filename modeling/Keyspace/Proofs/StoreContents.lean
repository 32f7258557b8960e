import Keyspace.Proofs.BucketCoherence
import Keyspace.Proofs.StoreRegistry
import Mathlib.Logic.Relation

/-!
# The buckets of a store in every state

Whatever is called on the registry of a store, on its buckets and on its pool, in whatever order and
while whatever else is under way (`Store.Changed`), every name has its own bucket, and each bucket,
whether it is still registered or not, keeps its keys in the shards that the hash picks, once and
with a value (`Store.Filled`, `Store.filled_of_reaches`).
-/

namespace Keyspace

variable {V : Type}

namespace Store

variable {s : Store V}

/-- **Every name has its bucket, and every bucket has its keys in their shards**, once and with a
value. -/
structure Filled (s : Store V) : Prop where
  sound : s.Sound
  spread : ∀ b ∈ s.buckets, b.map.Spread s.hash s.shards

/-- A new store has no buckets. -/
theorem Filled.created {hash : Bytes → Nat} {workers queue shards : Nat} {log : Log}
    (h : create hash workers queue shards = .ok (s, log)) : s.Filled := by
  obtain ⟨-, -, hregistry, hbuckets⟩ := eq_of_create h
  refine ⟨.of_registry_eq_nil hregistry, ?_⟩
  rw [hbuckets]
  exact fun b hb => nomatch hb

/-- A bucket that is replaced under its name leaves the registry sound. -/
theorem Sound.set (h : s.Sound) {i : Instance} {b c : Bucket V} (hb : s.buckets[i]? = some b)
    (hname : c.name = b.name) (pool : WorkerPool (Product V)) :
    Sound { s with pool, buckets := s.buckets.set i c } where
  ascending := h.ascending
  filled name slot hslot := by
    obtain ⟨j, d, hj, hd, hn⟩ := h.filled name slot hslot
    by_cases hij : i = j
    · subst hij
      rw [hb] at hd
      cases hd
      have hlt : i < s.buckets.length := (List.getElem?_eq_some_iff.mp hb).1
      exact ⟨i, c, hj, List.getElem?_set_self hlt, hname.trans hn⟩
    · exact ⟨j, d, hj, (List.getElem?_set_ne hij).trans hd, hn⟩

end Store

variable [Storable V]

/-- A step changes the name of no bucket. -/
theorem BucketSystem.Transition.name {u v : BucketSystem V} {e : Event V} (h : Transition u e v) :
    v.bucket.name = u.bucket.name := by
  cases h with
  | turned _ turn => cases turn <;> rfl
  | _ => rfl

theorem BucketSystem.name_of_run {u v : BucketSystem V} {steps : List (Step V)}
    (hrun : u.run? steps = some v) : v.bucket.name = u.bucket.name :=
  run_induction (P := fun _ w => w.bucket.name = u.bucket.name)
    (fun _ _ _ _ hw htrans => htrans.name.trans hw) rfl hrun

namespace Store

variable {s t : Store V}

/-- **What can happen to a store**: a call on its registry, as long as it can make the bucket that it
asks for; a run of the updates and accesses of a bucket, whatever calls on it are under way, with any
change of its snapshots and of the pool. -/
inductive Changed (s : Store V) : Store V → Prop
  | call (call : Call) (made : s.Makes ∨ ∀ name, call ≠ .getOrCreate name) :
    Changed s (s.answer call).2
  | used {i : Instance} {u v : BucketSystem V} {steps : List (BucketSystem.Step V)}
    (bucket : s.buckets[i]? = some u.bucket) (run : u.run? steps = some v)
    (cache : Option SnapshotCache) (pool : WorkerPool (Product V)) :
    Changed s { s with pool, buckets := s.buckets.set i { v.bucket with cache } }

/-- A store comes to be another one. -/
abbrev Reaches : Store V → Store V → Prop :=
  Relation.ReflTransGen Changed

/-- **Whatever happens, the buckets stay filled.** -/
theorem Filled.changed (h : s.Filled) (hchange : Changed s t) : t.Filled := by
  cases hchange with
  | call call made =>
    have heffect := h.sound.effect call made
    refine ⟨heffect.sound h.sound, ?_⟩
    generalize (s.answer call).1 = result at heffect
    generalize (s.answer call).2 = t at heffect ⊢
    cases heffect with
    | none => exact h.spread
    | removed => exact h.spread
    | @made name b hnew hb =>
      intro c hc
      rcases List.mem_append.mp hc with hold | hlast
      · exact h.spread c hold
      · obtain ⟨map, hmap, heq⟩ := Bucket.eq_of_create hb
        rw [List.mem_singleton.mp hlast, heq]
        exact .create hmap
  | @used i u v steps bucket run cache pool =>
    have hu : u.bucket.map.Spread s.hash s.shards := h.spread _ (List.mem_of_getElem? bucket)
    have hname : Bucket.name { v.bucket with cache } = u.bucket.name := BucketSystem.name_of_run run
    refine ⟨h.sound.set bucket hname pool, fun c hc => ?_⟩
    rcases List.mem_or_eq_of_mem_set hc with hold | hset
    · exact h.spread c hold
    · rw [hset]
      exact BucketSystem.spread_of_run hu run

/-- **In every state that a new store comes to, the buckets are filled.** -/
theorem filled_of_reaches {hash : Bytes → Nat} {workers queue shards : Nat} {log : Log}
    (h : create hash workers queue shards = .ok (s, log)) (hreach : s.Reaches t) : t.Filled := by
  induction hreach with
  | refl => exact .created h
  | tail _ hchange ih => exact ih.changed hchange

end Store

end Keyspace
