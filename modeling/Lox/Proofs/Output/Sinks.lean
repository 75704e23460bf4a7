/-
  Lox.Proofs.Output.Sinks

  What writing to a sink does.

    * `Sink.Grows` — more may have been written to it;
    * `Sink.Begins` — what it holds is the beginning of what another one holds;
    * `Sink.Follows` — it has a limit and holds the same as a sink without one;
    * `Sink.Refused` — it reached its limit and refused the rest.
-/
import Lox.Sink

namespace Lox

namespace Sink

/-- The sink after something was written to it. -/
def Grows (o t : Sink) : Prop := ∃ rest, t = { o with bytes := o.bytes ++ rest }

/-- What is in the first sink is the beginning of what is in the second one. -/
def Begins (o' o : Sink) : Prop := ∃ rest, o.bytes = o'.bytes ++ rest

/-- The number of bytes is within a limit. -/
def Within (limit : Option Nat) (size : Nat) : Prop := ∀ most ∈ limit, size ≤ most

instance (limit : Option Nat) (size : Nat) : Decidable (Within limit size) :=
  inferInstanceAs (Decidable (∀ most ∈ limit, size ≤ most))

/-- Both sinks hold the same, and only the second one has the limit. -/
structure Follows (limit : Option Nat) (o o' : Sink) : Prop where
  free : o.limit = none
  limited : o'.limit = limit
  bytes : o'.bytes = o.bytes
  within : Within limit o.bytes.size

/-- The second sink holds exactly as much as its limit, the first one more. -/
structure Refused (limit : Option Nat) (o o' : Sink) : Prop where
  full : limit = some o'.bytes.size
  more : o'.bytes.size < o.bytes.size
  begins : o'.Begins o

variable {limit : Option Nat} {o o' t : Sink}

theorem Grows.refl (o : Sink) : o.Grows o := ⟨.empty, by rw [ByteArray.append_empty]⟩

theorem Grows.trans {u : Sink} (hot : o.Grows t) (htu : t.Grows u) : o.Grows u := by
  obtain ⟨first, rfl⟩ := hot
  obtain ⟨second, rfl⟩ := htu
  exact ⟨first ++ second, by rw [ByteArray.append_assoc]⟩

theorem grows_write (o : Sink) (text : String) : o.Grows (o.write text).2 := by
  obtain ⟨_ | limit, bytes⟩ := o
  · exact ⟨text.toUTF8, rfl⟩
  · unfold write
    dsimp only
    split
    · exact ⟨text.toUTF8, rfl⟩
    · exact ⟨text.toUTF8.extract 0 (limit - bytes.size), rfl⟩

theorem Begins.of_eq (h : o'.bytes = o.bytes) : o'.Begins o :=
  ⟨.empty, by rw [ByteArray.append_empty, h]⟩

theorem Begins.later (h : o'.Begins o) (hgrows : o.Grows t) : o'.Begins t := by
  obtain ⟨rest, hrest⟩ := h
  obtain ⟨more, rfl⟩ := hgrows
  exact ⟨rest ++ more, by rw [← ByteArray.append_assoc, ← hrest]⟩

theorem Refused.later (h : o.Refused limit o') (hgrows : o.Grows t) : t.Refused limit o' := by
  refine ⟨h.full, ?_, h.begins.later hgrows⟩
  obtain ⟨more, rfl⟩ := hgrows
  exact Nat.lt_of_lt_of_le h.more (by simp [ByteArray.size_append])

/-- Where the first sink holds more than the limit, the second one refused. -/
theorem Refused.not_within (h : o.Refused limit o') : ¬Within limit o.bytes.size := by
  intro hwithin
  exact Nat.not_le_of_lt h.more (hwithin _ h.full)

/-- A sink without a limit takes everything. -/
theorem write_free (h : o.limit = none) (text : String) :
    o.write text = (true, ⟨none, o.bytes ++ text.toUTF8⟩) := by
  obtain ⟨_, bytes⟩ := o
  cases h
  rfl

/-- A text is written to both sinks, or the second one keeps a part and refuses. -/
theorem Follows.write (h : o.Follows limit o') (text : String) :
    (o'.write text).1 = (o.write text).1 ∧ (o.write text).2.Follows limit (o'.write text).2 ∨
    (o'.write text).1 = false ∧ (o.write text).2.Refused limit (o'.write text).2 := by
  obtain ⟨limit', bytes'⟩ := o'
  obtain ⟨hfree, rfl, rfl, hwithin⟩ := h
  rw [write_free hfree]
  cases limit' with
  | none => exact .inl ⟨rfl, rfl, rfl, rfl, nofun⟩
  | some most =>
    have hroom : o.bytes.size ≤ most := hwithin most rfl
    unfold Sink.write
    dsimp only
    split
    · next hfits =>
      refine .inl ⟨rfl, rfl, rfl, rfl, ?_⟩
      rintro _ ⟨⟩
      show (o.bytes ++ text.toUTF8).size ≤ most
      rw [ByteArray.size_append]
      omega
    · next hlong =>
      -- What is kept fills the sink up to the limit.
      have hkept : (text.toUTF8.extract 0 (most - o.bytes.size)).size = most - o.bytes.size := by
        rw [ByteArray.size_extract]
        omega
      have hsize : (o.bytes ++ text.toUTF8.extract 0 (most - o.bytes.size)).size = most := by
        rw [ByteArray.size_append, hkept]
        omega
      refine .inr ⟨rfl, ?_, ?_, text.toUTF8.extract (most - o.bytes.size) text.toUTF8.size, ?_⟩
      · rw [hsize]
      · show (o.bytes ++ _).size < (o.bytes ++ text.toUTF8).size
        rw [hsize, ByteArray.size_append]
        omega
      · show o.bytes ++ text.toUTF8 = o.bytes ++ _ ++ _
        rw [ByteArray.append_assoc, ByteArray.extract_append_extract, Nat.zero_min,
          Nat.max_eq_right (by omega), ByteArray.extract_zero_size]

end Sink

end Lox
