/-!
# FNV-1a

The 64-bit FNV-1a hash of a string of bytes. Each byte is mixed into the low
end of the state, and the state is then multiplied by the FNV prime; the
arithmetic wraps around.
-/
namespace Scriptlet.Fnv

def offset : UInt64 := 14695981039346656037

def prime : UInt64 := 1099511628211

def step (state : UInt64) (byte : UInt8) : UInt64 := (state ^^^ byte.toUInt64) * prime

def absorb (state : UInt64) (bytes : List UInt8) : UInt64 := bytes.foldl step state

def hash (bytes : List UInt8) : UInt64 := absorb offset bytes

@[simp]
theorem absorb_nil (state : UInt64) : absorb state [] = state := rfl

@[simp]
theorem absorb_cons (state : UInt64) (byte : UInt8) (bytes : List UInt8) :
    absorb state (byte :: bytes) = absorb (step state byte) bytes := rfl

theorem absorb_append (state : UInt64) (front back : List UInt8) :
    absorb state (front ++ back) = absorb (absorb state front) back := by
  simp only [absorb, List.foldl_append]

/-- Strings are hashed by their UTF-8 bytes. -/
def ofString (s : String) : UInt64 := hash s.toUTF8.data.toList

end Scriptlet.Fnv
