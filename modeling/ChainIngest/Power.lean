/-!
# Powers

Powers with natural exponents are the core library's everywhere, also where a
module has another account of powers at hand, so that all modules speak of the
same ones.
-/

namespace ChainIngest

@[default_instance 20000]
instance (priority := 20000) natPower {α : Type} [NatPow α] : Pow α Nat := instPowNat

end ChainIngest
