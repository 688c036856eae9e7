import LFGateway.Gateway.Impl.Api

/-!
This module contains the keys of Redis that a request asks about, and that two of them are the same
only if they are meant to be.
-/

namespace LFGateway

open Foundation

namespace Gateway

def bucketKey (pathPattern : Bytes) : Bytes :=
  (Bytes.ofAscii "gateway:rate_limit" ++ Bytes.ofAscii ":" ++ pathPattern).cStr

def secondKey (pathPattern : Bytes) (ns : Int) : Bytes :=
  (Bytes.ofAscii "rate:" ++ pathPattern ++ Bytes.ofAscii ":" ++
    Bytes.ofInt (ns.tdiv 1000000000)).cStr

def tokenPrefix : Bytes := Bytes.ofAscii "token:"

def logKey : Bytes := Bytes.ofAscii "log_stream"

/--
How the command of `LogConsumer::push` begins.
-/
def xaddLog : Bytes := Bytes.ofAscii "XADD log_stream "

section Separate

variable {p q key : Bytes} {ns ms : Int}

theorem head?_bucketKey : (bucketKey p).head? = some 103 := rfl

theorem head?_secondKey : (secondKey p ns).head? = some 114 := rfl

theorem head?_of_tokenPrefix (h : tokenPrefix <+: key) : key.head? = some 116 := by
  obtain ⟨rest, rfl⟩ := h
  rfl

theorem bucketKey_injective (hp : 0 ∉ p) (hq : 0 ∉ q) (h : bucketKey p = bucketKey q) : p = q := by
  have hclean : ∀ {p : Bytes}, 0 ∉ p →
      0 ∉ Bytes.ofAscii "gateway:rate_limit" ++ Bytes.ofAscii ":" ++ p := by
    intro p hp
    rw [List.mem_append, not_or]
    exact ⟨by decide, hp⟩
  unfold bucketKey at h
  rw [Bytes.cStr_of_notMem (hclean hp), Bytes.cStr_of_notMem (hclean hq)] at h
  exact List.append_cancel_left h

/--
However many colons and digits are in the patterns, the second is what stands behind the last colon.
-/
theorem secondKey_injective (hp : 0 ∉ p) (hq : 0 ∉ q) (h : secondKey p ns = secondKey q ms)
    : p = q ∧ ns.tdiv 1000000000 = ms.tdiv 1000000000 := by
  have hclean : ∀ {p : Bytes} {second : Int}, 0 ∉ p →
      0 ∉ Bytes.ofAscii "rate:" ++ p ++ Bytes.ofAscii ":" ++ Bytes.ofInt second := by
    intro p second hp
    simp only [List.mem_append, not_or]
    exact ⟨⟨⟨by decide, hp⟩, by decide⟩, Bytes.notMem_ofInt (by decide) (by decide) second⟩
  have hcolon : ∀ second, 58 ∉ Bytes.ofInt second := Bytes.notMem_ofInt (by decide) (by decide)
  have hone : Bytes.ofAscii ":" = [58] := rfl
  unfold secondKey at h
  rw [Bytes.cStr_of_notMem (hclean hp), Bytes.cStr_of_notMem (hclean hq), hone] at h
  rw [List.append_assoc _ [58], List.append_assoc _ [58]] at h
  obtain ⟨hpattern, hsecond⟩ := Bytes.append_cons_inj_of_notMem (hcolon _) (hcolon _) h
  exact ⟨List.append_cancel_left hpattern, Bytes.ofInt_injective hsecond⟩

/--
Two keys of the same purpose are equal only for the same pattern and the same second, two keys of
different purposes never.
-/
def KeysSeparate : Prop :=
  (∀ p q, 0 ∉ p → 0 ∉ q → bucketKey p = bucketKey q → p = q) ∧
    (∀ p q ns ms, 0 ∉ p → 0 ∉ q → secondKey p ns = secondKey q ms →
      p = q ∧ ns.tdiv 1000000000 = ms.tdiv 1000000000) ∧
    (∀ p q ns, bucketKey p ≠ secondKey q ns) ∧
    ∀ token p ns, (tokenPrefix ++ token).cStr ≠ bucketKey p ∧ (tokenPrefix ++ token).cStr ≠ secondKey p ns

theorem ne_of_head? {s t : Bytes} (h : s.head? ≠ t.head?) : s ≠ t := fun heq => h (congrArg _ heq)

theorem keysSeparate : KeysSeparate := by
  refine ⟨fun p q hp hq h => bucketKey_injective hp hq h,
    fun p q ns ms hp hq h => secondKey_injective hp hq h, ?_, ?_⟩
  . intro p q ns
    apply ne_of_head?
    rw [head?_bucketKey, head?_secondKey]
    decide
  . intro token p ns
    have hhead := head?_of_tokenPrefix (Bytes.prefix_cStr_append (s := tokenPrefix) (t := token) (by decide))
    constructor
    . apply ne_of_head?
      rw [hhead, head?_bucketKey]
      decide
    . apply ne_of_head?
      rw [hhead, head?_secondKey]
      decide

end Separate

end Gateway
end LFGateway
