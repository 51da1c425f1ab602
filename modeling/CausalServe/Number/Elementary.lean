/-! Functions on floats that are computed outside of the arithmetic: roundings from double precision
and the trigonometry of rotations. What uses them takes them as one parameter, which nothing is
assumed of. Unless another is given it is that of the hardware. -/

namespace CausalServe

class Elementary where
  /-- A double as the nearest single. -/
  narrow : Float → Float32
  cos : Float32 → Float32
  sin : Float32 → Float32

instance Elementary.native : Elementary where
  narrow := Float.toFloat32
  cos := Float32.cos
  sin := Float32.sin

end CausalServe
