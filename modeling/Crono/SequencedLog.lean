import Mathlib.Data.List.Basic
import Mathlib.Data.List.Pairwise

/-! Logs of accepted writes, each to one key and with a sequence number. A register that accepts
only greater sequence numbers than its own holds the newest write of its key. -/
namespace SequencedLog

variable {ε κ : Type*} [DecidableEq κ] (key : ε → κ)

def writesTo (log : List ε) (k : κ) : List ε := log.filter fun e => key e = k

/-- The last write to a key. -/
def newest (log : List ε) (k : κ) : Option ε := (writesTo key log k).getLast?

/-- The sequence numbers of every key increase along the log. -/
def Increasing (sequence : ε → ℕ) (log : List ε) : Prop :=
  ∀ k, (writesTo key log k).Pairwise fun a b => sequence a < sequence b

variable {key} {sequence : ε → ℕ} {log : List ε} {e : ε} {k : κ}

theorem writesTo_append_self (h : key e = k) :
    writesTo key (log ++ [e]) k = writesTo key log k ++ [e] := by
  simp [writesTo, h]

theorem writesTo_append_other (h : key e ≠ k) :
    writesTo key (log ++ [e]) k = writesTo key log k := by
  simp [writesTo, h]

theorem newest_append_self (h : key e = k) : newest key (log ++ [e]) k = some e := by
  rw [newest, writesTo_append_self h, List.getLast?_concat]

theorem newest_append_other (h : key e ≠ k) : newest key (log ++ [e]) k = newest key log k := by
  rw [newest, writesTo_append_other h, newest]

theorem newest_mem (h : newest key log k = some e) : e ∈ log ∧ key e = k := by
  simpa [writesTo] using List.mem_of_getLast? h

theorem newest_eq_none (h : ∀ e ∈ log, key e ≠ k) : newest key log k = none := by
  rw [newest, writesTo, List.filter_eq_nil_iff.mpr (by simpa using h), List.getLast?_nil]

theorem Increasing.nil : Increasing key sequence ([] : List ε) := fun _ => .nil

theorem Increasing.newest_greatest (h : Increasing key sequence log) (he : e ∈ log) :
    ∃ last, newest key log (key e) = some last ∧ (e = last ∨ sequence e < sequence last) := by
  have hmem : e ∈ writesTo key log (key e) := by simp [writesTo, he]
  obtain ⟨last, hlast⟩ := Option.ne_none_iff_exists'.mp
    (mt List.getLast?_eq_none_iff.mp (List.ne_nil_of_mem hmem))
  refine ⟨last, hlast, ?_⟩
  obtain ⟨init, hinit⟩ := List.getLast?_eq_some_iff.mp hlast
  have hpairs := h (key e)
  rw [hinit] at hmem hpairs
  rcases List.mem_append.mp hmem with hearlier | hlast
  · exact .inr ((List.pairwise_append.mp hpairs).2.2 e hearlier last List.mem_cons_self)
  · exact .inl (List.mem_singleton.mp hlast)

theorem Increasing.newest_mono {log' : List ε} (h : Increasing key sequence log')
    (hgrows : log <+: log') (k : κ) :
    ((newest key log k).map sequence).getD 0 ≤ ((newest key log' k).map sequence).getD 0 := by
  cases hnewest : newest key log k with
  | none => exact Nat.zero_le _
  | some e =>
    obtain ⟨hmem, rfl⟩ := newest_mem hnewest
    obtain ⟨last, hlast, horder⟩ := h.newest_greatest (hgrows.subset hmem)
    rw [hlast]
    rcases horder with rfl | hlt
    · exact Nat.le_refl _
    · exact Nat.le_of_lt hlt

theorem Increasing.append (h : Increasing key sequence log)
    (hnewer : ∀ last, newest key log (key e) = some last → sequence last < sequence e) :
    Increasing key sequence (log ++ [e]) := by
  intro k
  by_cases hk : key e = k
  · subst hk
    rw [writesTo_append_self rfl]
    refine List.pairwise_append.mpr ⟨h (key e), List.pairwise_singleton _ _, ?_⟩
    intro a ha b hb
    rw [List.mem_singleton.mp hb]
    simp only [writesTo, List.mem_filter, decide_eq_true_eq] at ha
    obtain ⟨last, hlast, horder⟩ := h.newest_greatest ha.1
    rw [ha.2] at hlast
    rcases horder with rfl | hlt
    · exact hnewer _ hlast
    · exact Nat.lt_trans hlt (hnewer last hlast)
  · rw [writesTo_append_other hk]
    exact h k

end SequencedLog
