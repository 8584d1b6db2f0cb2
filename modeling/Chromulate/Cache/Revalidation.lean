import Chromulate.Cache.Policy

/-!
# The age after a revalidation

`refreshed` gives an entry new times and the fields of the `304`. The age is then computed from the
`Date` and the `Age` of the merged fields, and a field that the `304` does not repeat is the stored
one: with no `Date` in the `304` the entry looks as old as it did when it was stored, and an `Age`
that was stored is counted again.

`restarted_iff` says when the age does restart.
-/

namespace Chromulate.Cache

open HeaderMap

/-- The time from a date to an instant, none if there is no date or it is later. -/
def sinceDate (now : SystemTime) (date : Option SystemTime) : Duration :=
  (date.bind fun date => SystemTime.durationSince now date).getD 0

namespace CacheEntry

variable (entry : CacheEntry) (notModified : HeaderMap) (requestedAt receivedAt : SystemTime)

theorem headerDate_congr {a b : HeaderMap} {name : HeaderName} (h : getAll a name = getAll b name) :
    headerDate a name = headerDate b name := by
  rw [headerDate, headerDate, HeaderMap.get, HeaderMap.get, h]

theorem ageField_refreshed (hage : getAll notModified .age = []) :
    (entry.refreshed notModified requestedAt receivedAt).ageField = entry.ageField := by
  have hsame : getAll (entry.refreshed notModified requestedAt receivedAt).headers .age =
      getAll entry.headers .age := by
    rw [getAll_refreshed, if_neg (by simp [replaces, containsKey, hage])]
  rw [ageField, ageField, HeaderMap.get, HeaderMap.get, hsame]

/-- The date is that of the `304`, if it has one, and else the stored one. -/
theorem date_refreshed :
    (entry.refreshed notModified requestedAt receivedAt).date =
      if containsKey notModified .date then headerDate notModified .date else entry.date := by
  have hplain : replaces notModified .date = containsKey notModified .date := by
    rw [replaces, show (isHopByHop .date || decide (HeaderName.date = .contentLength)) = false
      from by decide]
    simp
  have hgetAll := entry.getAll_refreshed notModified requestedAt receivedAt .date
  rw [hplain] at hgetAll
  split_ifs at hgetAll ⊢ with hdate
  · exact headerDate_congr hgetAll
  · exact headerDate_congr hgetAll

theorem apparentAge_eq (entry : CacheEntry) :
    (SystemTime.durationSince entry.receivedAt entry.effectiveDate).getD 0 =
      sinceDate entry.receivedAt entry.date := by
  rw [effectiveDate, sinceDate]
  cases entry.date with
  | none => simp [SystemTime.durationSince]
  | some date => rfl

theorem currentAge_refreshed (hage : getAll notModified .age = [])
    (hle : requestedAt ≤ receivedAt) :
    currentAge (entry.refreshed notModified requestedAt receivedAt) receivedAt =
      min (max
        (sinceDate receivedAt (entry.refreshed notModified requestedAt receivedAt).date)
        (entry.ageField.getD 0 + (receivedAt - requestedAt).toNat)) Duration.max := by
  have happarent := apparentAge_eq (entry.refreshed notModified requestedAt receivedAt)
  have hage' := entry.ageField_refreshed notModified requestedAt receivedAt hage
  have hreceived : (entry.refreshed notModified requestedAt receivedAt).receivedAt = receivedAt :=
    rfl
  have hrequested : (entry.refreshed notModified requestedAt receivedAt).requestedAt =
      requestedAt := rfl
  have hdelay : (SystemTime.durationSince receivedAt requestedAt).getD 0 =
      (receivedAt - requestedAt).toNat := by simp [SystemTime.durationSince, hle]
  have hresident : (SystemTime.durationSince receivedAt receivedAt).getD 0 = 0 := by
    simp [SystemTime.durationSince]
  rw [hreceived] at happarent
  rw [currentAge, hreceived, hrequested, happarent, hage', hdelay, hresident]
  have hsaturated : ∀ a b m : Nat, min (max a (min b m)) m = min (max a b) m := by omega
  exact hsaturated _ _ _

/-! ## When the age restarts -/

/-- The larger of the time the request took and the age that the `Date` of the `304` gives. -/
def restartBound : Duration :=
  max (receivedAt - requestedAt).toNat (sinceDate receivedAt (headerDate notModified .date))

/-- The age is at most the bound, so an entry that lives longer is fresh, unless it is to be
revalidated at every use. -/
structure Restarted : Prop where
  age_le : currentAge (entry.refreshed notModified requestedAt receivedAt) receivedAt ≤
    restartBound notModified requestedAt receivedAt
  fresh : ∀ cc config lifetime,
    freshnessLifetime (entry.refreshed notModified requestedAt receivedAt) cc config =
        some lifetime →
      restartBound notModified requestedAt receivedAt < lifetime →
      isFresh (entry.refreshed notModified requestedAt receivedAt) cc config receivedAt =
        !cc.noCache

/-- The stored `Age` does not count, and the stored `Date` is replaced or not older than the
request. -/
def Restarts : Prop :=
  min (entry.ageField.getD 0 + (receivedAt - requestedAt).toNat) Duration.max ≤
      restartBound notModified requestedAt receivedAt ∧
    (containsKey notModified .date = false →
      min (sinceDate receivedAt entry.date) Duration.max ≤ (receivedAt - requestedAt).toNat)

instance : Decidable (entry.Restarts notModified requestedAt receivedAt) :=
  inferInstanceAs (Decidable (_ ∧ _))

/-- **When a revalidation restarts the age.** -/
theorem restarted_iff (hage : getAll notModified .age = []) (hle : requestedAt ≤ receivedAt) :
    entry.Restarted notModified requestedAt receivedAt ↔
      entry.Restarts notModified requestedAt receivedAt := by
  have hcurrent := entry.currentAge_refreshed notModified requestedAt receivedAt hage hle
  have hdate := entry.date_refreshed notModified requestedAt receivedAt
  have hbound : currentAge (entry.refreshed notModified requestedAt receivedAt) receivedAt ≤
      restartBound notModified requestedAt receivedAt ↔
        entry.Restarts notModified requestedAt receivedAt := by
    rw [hcurrent, Restarts, hdate]
    cases hhas : containsKey notModified .date with
    | true =>
      have hsplit : ∀ a b d m : Nat, min (max a b) m ≤ max d a ↔ min b m ≤ max d a := by omega
      simp only [if_true, Bool.true_eq_false, false_implies, and_true]
      exact hsplit _ _ _ _
    | false =>
      have hnone : headerDate notModified .date = none := by
        have hnil : getAll notModified .date = [] := by simpa [containsKey] using hhas
        simp [headerDate, HeaderMap.get, hnil]
      have hzero : sinceDate receivedAt none = 0 := rfl
      have hsplit : ∀ a b d m : Nat,
          min (max a b) m ≤ max d 0 ↔ min b m ≤ max d 0 ∧ min a m ≤ d := by omega
      simp only [Bool.false_eq_true, if_false, forall_const, restartBound, hnone, hzero]
      exact hsplit _ _ _ _
  constructor
  · exact fun h => hbound.mp h.age_le
  · intro h
    have hle' := hbound.mpr h
    refine ⟨hle', fun cc config lifetime hlifetime hlt => ?_⟩
    rw [isFresh, hlifetime]
    cases cc.noCache with
    | true => rfl
    | false => simpa using lt_of_le_of_lt hle' hlt

/-- Stored at 08:49:37 on the sixth of November 1994, and good for ten minutes. -/
def dated : CacheEntry where
  status := 200
  version := .http11
  headers := [(.date, .fromStatic "Sun, 06 Nov 1994 08:49:37 GMT"),
    (.cacheControl, .fromStatic "max-age=600")]
  body := []
  selector := Selector.any
  requestedAt := SystemTime.ofEpochSeconds 784111777
  receivedAt := SystemTime.ofEpochSeconds 784111777

/-- The same, as an intermediary passed it on after an hour. -/
def aged : CacheEntry := { dated with headers := (.age, .fromStatic "3600") :: dated.headers }

/-- A `304` an hour later, with its own `Date`. -/
def anHourLater : HeaderMap := [(.date, .fromStatic "Sun, 06 Nov 1994 09:49:37 GMT")]

theorem restarted_dated :
    dated.Restarted anHourLater (SystemTime.ofEpochSeconds 784115377)
      (SystemTime.ofEpochSeconds 784115377) :=
  (restarted_iff _ _ _ _ (by decide +kernel) (by decide +kernel)).mpr (by decide +kernel)

/-- The stored `Age` is counted again; and without a `Date` in the `304`, so is the hour since the
stored one. Either way the entry is stale as soon as it is revalidated. -/
theorem not_restarted_aged :
    let now := SystemTime.ofEpochSeconds 784115377
    restartBound anHourLater now now = 0 ∧
      currentAge (aged.refreshed anHourLater now now) now = Duration.fromSecs 3600 ∧
      isFresh (aged.refreshed anHourLater now now)
        (CacheControl.of (aged.refreshed anHourLater now now).headers) .default now = false ∧
      restartBound [] now now = 0 ∧
      currentAge (dated.refreshed [] now now) now = Duration.fromSecs 3600 ∧
      isFresh (dated.refreshed [] now now)
        (CacheControl.of (dated.refreshed [] now now).headers) .default now = false := by
  decide +kernel

end CacheEntry

end Chromulate.Cache
